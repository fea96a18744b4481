import Mathlib
import ReportMigration.Proofs.Markup.References
import ReportMigration.Proofs.Markup.Selectors

/-!
# Start tags and selectors

A start tag is written with its attributes in any order and spacing, in either kind of quotes and
with their values spelt in any way. What a selector says of it depends on none of that: it compares
the local part of the name, and the local parts of the keys with the values.
-/

namespace ReportMigration.Markup

open Text

/-- The part of a name behind its first colon, or the whole of a name without one. -/
inductive LocalPart : List Char → List Char → Prop
  | whole {name : List Char} (h : ':' ∉ name) : LocalPart name name
  | behind {space rest : List Char} (h : ':' ∉ space) : LocalPart (space ++ ':' :: rest) rest

def isKeyChar (c : Char) : Bool :=
  c != '=' && !isTagBlank c

def isKey (key : List Char) : Bool :=
  !key.isEmpty && key.all isKeyChar

/-- What follows the name in a start tag with the given keys and values: in front of each key,
around each equals sign and at the end there may be white space. A value is closed by the quote that
opens it. -/
inductive WrittenList : List Char → List (List Char × List Char) → Prop
  | nil {blanks : List Char} (h : blanks.all isTagBlank = true) : WrittenList blanks []
  | cons {lead key before behind written value rest : List Char} {quote : Char}
    {pairs : List (List Char × List Char)}
    (hlead : lead.all isTagBlank = true) (hkey : isKey key = true)
    (hbefore : before.all isTagBlank = true) (hbehind : behind.all isTagBlank = true)
    (hquote : quote = '"' ∨ quote = '\'') (hvalue : Denotes written value)
    (hclosed : quote ∉ written) (hrest : WrittenList rest pairs) :
    WrittenList
      (lead ++ (key ++ (before ++ '=' :: (behind ++ quote :: (written ++ quote :: rest)))))
      ((key, value) :: pairs)

/-- A start tag of the given name with the given keys and values. White space ends the name. -/
structure WrittenTag (tag name : List Char) (pairs : List (List Char × List Char)) : Prop where
  tag : ∃ rest, tag = name ++ rest ∧ WrittenList rest pairs ∧
    ∀ c, rest.head? = some c → isTagBlank c = true
  name : name.all (!isTagBlank ·) = true

variable {tag name key written value rest : List Char} {pairs : List (List Char × List Char)}

theorem localName_behind {space : List Char} (h : ':' ∉ space) (rest : List Char) :
    localName (space ++ ':' :: rest) = rest := by
  have hcut := (Selector.cut_append (fun c hc => bne_iff_ne.2 (ne_of_mem_of_not_mem hc h)) rest).2
  rw [localName, hcut]

theorem localName_whole (h : ':' ∉ name) : localName name = name := by
  have hnone : name.dropWhile (· != ':') = [] :=
    List.dropWhile_eq_nil_iff.2 fun c hc => bne_iff_ne.2 (ne_of_mem_of_not_mem hc h)
  rw [localName, hnone]

theorem localPart_iff {part : List Char} : LocalPart name part ↔ localName name = part := by
  constructor
  · rintro (h | h)
    · exact localName_whole h
    · exact localName_behind h _
  · rintro rfl
    by_cases hcolon : ':' ∈ name
    · obtain ⟨space, rest, rfl, hspace⟩ := List.eq_append_cons_of_mem hcolon
      rw [localName_behind hspace]
      exact .behind hspace
    · rw [localName_whole hcolon]
      exact .whole hcolon

theorem localPart_self_iff : LocalPart name name ↔ ':' ∉ name := by
  refine ⟨fun h hcolon => ?_, .whole⟩
  obtain ⟨space, rest, rfl, hspace⟩ := List.eq_append_cons_of_mem hcolon
  have hlong := congrArg List.length (localPart_iff.1 h)
  rw [localName_behind hspace, List.length_append, List.length_cons] at hlong
  omega

theorem takeWhile_dropWhile_append {p : Char → Bool} (h : name.all p = true)
    (hrest : ∀ c, rest.head? = some c → p c = false) :
    (name ++ rest).takeWhile p = name ∧ (name ++ rest).dropWhile p = rest := by
  rw [List.all_eq_true] at h
  rw [List.takeWhile_append_of_pos h, List.dropWhile_append_of_pos h]
  cases rest with
  | nil => exact ⟨List.append_nil name, rfl⟩
  | cons c rest =>
    have hc : ¬ p c = true := by simp [hrest c rfl]
    rw [List.takeWhile_cons_of_neg hc, List.dropWhile_cons_of_neg hc, List.append_nil]
    exact ⟨rfl, rfl⟩

theorem dropWhile_blanks {blanks : List Char} (h : blanks.all isTagBlank = true) {c : Char}
    (hc : isTagBlank c = false) (rest : List Char) :
    (blanks ++ c :: rest).dropWhile isTagBlank = c :: rest :=
  (takeWhile_dropWhile_append h fun d hd => by
    obtain rfl := Option.some.inj hd
    exact hc).2

theorem readItem_written {keys : List (List Char)} {lead before behind : List Char} {quote : Char}
    (hlead : lead.all isTagBlank = true) (hkey : isKey key = true) (hnew : key ∉ keys)
    (hbefore : before.all isTagBlank = true) (hbehind : behind.all isTagBlank = true)
    (hquote : quote = '"' ∨ quote = '\'') (hclosed : quote ∉ written) :
    readItem keys
        (lead ++ (key ++ (before ++ '=' :: (behind ++ quote :: (written ++ quote :: rest))))) =
      some (some key, some ⟨key, written⟩, rest) := by
  obtain ⟨first, more, rfl⟩ : ∃ first more, key = first :: more := by
    cases key with
    | nil => cases hkey
    | cons first more => exact ⟨first, more, rfl⟩
  obtain ⟨hfirst, hmore⟩ : isKeyChar first = true ∧ more.all isKeyChar = true := by
    simpa [isKey] using hkey
  have hinked : isTagBlank first = false := by
    simpa using (Bool.and_eq_true_iff.1 hfirst).2
  -- the key ends at the first white space or equals sign behind it
  have hend : ∀ c, (before ++ '=' :: (behind ++ quote :: (written ++ quote :: rest))).head? =
      some c → isKeyChar c = false := by
    intro c hc
    cases before with
    | nil =>
      obtain rfl := Option.some.inj hc
      rfl
    | cons blank before =>
      obtain rfl := Option.some.inj hc
      have hblank : isTagBlank blank = true := List.all_eq_true.1 hbefore _ List.mem_cons_self
      simp [isKeyChar, hblank]
  obtain ⟨htake, hdrop⟩ :=
    takeWhile_dropWhile_append (p := fun c => c != '=' && !isTagBlank c) hmore hend
  have hquoted : isTagBlank quote = false := by rcases hquote with rfl | rfl <;> rfl
  obtain ⟨hvalue, hrest⟩ := Selector.cut_append (d := quote)
    (fun c hc => bne_iff_ne.2 (ne_of_mem_of_not_mem hc hclosed)) rest
  unfold readItem
  rw [List.cons_append, dropWhile_blanks hlead hinked]
  dsimp only
  rw [htake, hdrop, dropWhile_blanks hbefore rfl]
  dsimp only
  rw [if_neg (not_not.2 rfl), if_neg (by simpa using hnew), dropWhile_blanks hbehind hquoted]
  dsimp only
  rw [if_neg (by rcases hquote with rfl | rfl <;> simp), hvalue, hrest]

def Attribute.Means (found : Attribute) (pair : List Char × List Char) : Prop :=
  found.key = pair.1 ∧ decode found.value = .ok pair.2

theorem WrittenList.read (h : WrittenList rest pairs) {keys : List (List Char)}
    (hnew : (keys ++ pairs.map Prod.fst).Nodup) :
    List.Forall₂ Attribute.Means (readAttributes keys rest) pairs := by
  induction h generalizing keys with
  | @nil blanks h =>
    have hnone : readItem keys blanks = none := by
      unfold readItem
      rw [List.dropWhile_eq_nil_iff.2 (List.all_eq_true.1 h)]
    rw [readAttributes, hnone]
    exact .nil
  | @cons lead key before behind written value rest quote pairs hlead hkey hbefore hbehind hquote
      hvalue hclosed hrest ih =>
    rw [List.map_cons] at hnew
    have hfresh : key ∉ keys := fun hmem =>
      (List.nodup_append.1 hnew).2.2 key hmem key List.mem_cons_self rfl
    rw [readAttributes, readItem_written hlead hkey hfresh hbefore hbehind hquote hclosed]
    refine .cons ⟨rfl, hvalue.decode_eq⟩ (ih ?_)
    rwa [Option.toList_some, List.append_assoc]

theorem WrittenTag.tagName_eq (h : WrittenTag tag name pairs) : tagName tag = name := by
  obtain ⟨⟨rest, rfl, -, hend⟩, hname⟩ := h
  exact (takeWhile_dropWhile_append hname fun c hc => by simp [hend c hc]).1

theorem WrittenTag.attributes_forall (h : WrittenTag tag name pairs)
    (distinct : (pairs.map Prod.fst).Nodup) :
    List.Forall₂ Attribute.Means (attributes tag) pairs := by
  obtain ⟨⟨rest, rfl, hlist, hend⟩, hname⟩ := h
  have hrest : tagRest (name ++ rest) = rest :=
    (takeWhile_dropWhile_append hname fun c hc => by simp [hend c hc]).2
  rw [attributes, hrest]
  exact hlist.read distinct

theorem exists_writtenTag (hname : name.all (!isTagBlank ·) = true)
    (hkeys : ∀ pair ∈ pairs, isKey pair.1 = true) : ∃ tag, WrittenTag tag name pairs := by
  obtain ⟨rest, hrest, hend⟩ : ∃ rest, WrittenList rest pairs ∧
      ∀ c, rest.head? = some c → isTagBlank c = true := by
    induction pairs with
    | nil => exact ⟨[], .nil rfl, nofun⟩
    | cons pair pairs ih =>
      obtain ⟨hkey, hothers⟩ := List.forall_mem_cons.1 hkeys
      obtain ⟨rest, hrest, -⟩ := ih hothers
      obtain ⟨written, hvalue, hclosed⟩ := exists_denotes pair.2
      exact ⟨_, @WrittenList.cons [' '] pair.1 [] [] written pair.2 rest '"' pairs rfl hkey rfl rfl
        (.inl rfl) hvalue hclosed hrest, by rintro c ⟨⟩; rfl⟩
  exact ⟨_, ⟨rest, rfl, hrest, hend⟩, hname⟩

namespace Selector

variable {s : Selector}

theorem accepts_iff {found : Attribute} {pair wanted : List Char × List Char}
    (h : found.Means pair) :
    accepts wanted found = true ↔ LocalPart pair.1 wanted.1 ∧ pair.2 = wanted.2 := by
  rw [accepts, h.1, h.2, Bool.and_eq_true, beq_iff_eq, beq_iff_eq, localPart_iff]

theorem any_accepts_iff {wanted : List Char × List Char} {found : List Attribute}
    (h : List.Forall₂ Attribute.Means found pairs) :
    found.any (accepts wanted) = true ↔
      ∃ pair ∈ pairs, LocalPart pair.1 wanted.1 ∧ pair.2 = wanted.2 := by
  induction h with
  | nil => simp
  | cons first _ ih =>
    rw [List.any_cons, Bool.or_eq_true, accepts_iff first, ih, List.exists_mem_cons_iff]

/-- The selector is met by an element of the given name with the given keys and values. -/
def MetBy (s : Selector) (name : List Char) (pairs : List (List Char × List Char)) : Prop :=
  LocalPart name s.element ∧ ∀ wanted value, s.condition = some (wanted, value) →
    ∃ key, (key, value) ∈ pairs ∧ LocalPart key wanted

theorem selects_iff_metBy (h : WrittenTag tag name pairs)
    (distinct : (pairs.map Prod.fst).Nodup) : s.selects tag = true ↔ s.MetBy name pairs := by
  rw [selects, h.tagName_eq, Bool.and_eq_true, beq_iff_eq, ← localPart_iff, MetBy]
  refine and_congr_right fun _ => ?_
  cases s.condition with
  | none => exact iff_of_true rfl nofun
  | some wanted =>
    rw [any_accepts_iff (h.attributes_forall distinct)]
    constructor
    · rintro ⟨⟨key, value⟩, hmem, hkey, rfl⟩ _ _ ⟨⟩
      exact ⟨key, hmem, hkey⟩
    · intro hmet
      obtain ⟨key, hmem, hkey⟩ := hmet wanted.1 wanted.2 rfl
      exact ⟨(key, wanted.2), hmem, hkey, rfl⟩

def localPairs (pairs : List (List Char × List Char)) : List (List Char × List Char) :=
  pairs.map fun pair => (localName pair.1, pair.2)

theorem metBy_iff : s.MetBy name pairs ↔ localName name = s.element ∧
    ∀ wanted value, s.condition = some (wanted, value) → (wanted, value) ∈ localPairs pairs := by
  rw [MetBy, localPart_iff]
  refine and_congr_right fun _ => forall₃_congr fun wanted value _ => ?_
  rw [localPairs, List.mem_map]
  constructor
  · rintro ⟨key, hmem, hkey⟩
    exact ⟨(key, value), hmem, by rw [localPart_iff.1 hkey]⟩
  · rintro ⟨⟨key, value'⟩, hmem, hsame⟩
    obtain ⟨hkey, rfl⟩ := Prod.mk.inj hsame
    exact ⟨key, hmem, localPart_iff.2 hkey⟩

/-- A selector selects a written start tag exactly if it is met by the name, the keys and the values
that the tag was written of. So two tags with the same local part of the name, and the same local
parts of the keys with the same values in any order, are selected alike. -/
theorem selects_iff_of_written (h : WrittenTag tag name pairs)
    (distinct : (pairs.map Prod.fst).Nodup) :
    (s.selects tag = true ↔ s.MetBy name pairs) ∧
      ∀ tag' name' pairs', WrittenTag tag' name' pairs' → (pairs'.map Prod.fst).Nodup →
        localName name' = localName name → (localPairs pairs').Perm (localPairs pairs) →
          s.selects tag' = s.selects tag := by
  refine ⟨selects_iff_metBy h distinct, fun tag' name' pairs' h' distinct' hname hpairs => ?_⟩
  have hmet : s.MetBy name' pairs' ↔ s.MetBy name pairs := by
    rw [metBy_iff, metBy_iff, hname]
    simp only [hpairs.mem_iff]
  rw [Bool.eq_iff_iff, selects_iff_metBy h' distinct', selects_iff_metBy h distinct, hmet]

/-- Prefixes, an attribute in front, white space, the other quotes and a reference do not keep a tag
from being selected. -/
theorem selects_iff_of_written_prefixed :
    let s : Selector := ⟨"property".toList, some ("name".toList, "queryText".toList)⟩
    let tag := "jr:property\n id=''jr:name = \"&#x71;ueryText\" ".toList
    let pairs := [("id".toList, []), ("jr:name".toList, "queryText".toList)]
    WrittenTag tag "jr:property".toList pairs ∧ (pairs.map Prod.fst).Nodup ∧
      s.selects tag = true ∧ (s.selects tag = true ↔ s.MetBy "jr:property".toList pairs) ∧
      ∀ tag' name' pairs', WrittenTag tag' name' pairs' → (pairs'.map Prod.fst).Nodup →
        localName name' = localName "jr:property".toList →
          (localPairs pairs').Perm (localPairs pairs) → s.selects tag' = s.selects tag := by
  intro s tag pairs
  have hvalue : Denotes "&#x71;ueryText".toList "queryText".toList :=
    @Denotes.cons "&#x71;".toList "ueryText".toList 'q' "ueryText".toList
      (@Stands.hexadecimal ['7', '1'] 'q' ⟨by decide, [7, 1], by decide, by decide⟩ (by decide))
      (denotes_plain (by decide))
  have hlast : WrittenList "jr:name = \"&#x71;ueryText\" ".toList
      [("jr:name".toList, "queryText".toList)] :=
    @WrittenList.cons [] "jr:name".toList [' '] [' '] _ _ [' '] '"' _ rfl (by decide) rfl rfl
      (.inl rfl) hvalue (by decide) (.nil rfl)
  have hlist : WrittenList "\n id=''jr:name = \"&#x71;ueryText\" ".toList pairs :=
    @WrittenList.cons "\n ".toList "id".toList [] [] [] [] _ '\'' _ rfl (by decide) rfl rfl
      (.inr rfl) .nil (by decide) hlast
  have h : WrittenTag tag "jr:property".toList pairs :=
    ⟨⟨_, rfl, hlist, by rintro c ⟨⟩; rfl⟩, rfl⟩
  have distinct : (pairs.map Prod.fst).Nodup := by decide
  have hmet : s.MetBy "jr:property".toList pairs :=
    metBy_iff.2 ⟨by decide, by rintro _ _ ⟨⟩; decide⟩
  obtain ⟨hiff, hothers⟩ := selects_iff_of_written (s := s) h distinct
  exact ⟨h, distinct, hiff.2 hmet, hiff, hothers⟩

theorem not_isTagBlank_of_isNameChar {c : Char} (h : isNameChar c = true) :
    isTagBlank c = false := by
  by_contra hblank
  simp only [isTagBlank, Bool.not_eq_false, Bool.or_eq_true, beq_iff_eq] at hblank
  rcases hblank with ((rfl | rfl) | rfl) | rfl <;> exact absurd h (by decide)

theorem isKey_of_isName (h : isName key = true) : isKey key = true := by
  obtain ⟨hne, hall⟩ := isName_iff.1 h
  rw [isKey, Bool.and_eq_true, List.all_eq_true]
  refine ⟨by simpa using hne, fun c hc => ?_⟩
  have heq : c ≠ '=' := by
    rintro rfl
    exact absurd (hall _ hc) (by decide)
  simp [isKeyChar, heq, not_isTagBlank_of_isNameChar (hall c hc)]

theorem all_not_isTagBlank (h : isName name = true) : name.all (!isTagBlank ·) = true := by
  rw [List.all_eq_true]
  intro c hc
  simp [not_isTagBlank_of_isNameChar ((isName_iff.1 h).2 c hc)]

/-- The attribute that a selector asks for, as the only one of a tag. -/
def wantedPairs (s : Selector) : List (List Char × List Char) :=
  s.condition.toList

theorem metBy_wantedPairs (s : Selector) : s.MetBy s.element s.wantedPairs ↔
    ':' ∉ s.element ∧ ∀ wanted value, s.condition = some (wanted, value) → ':' ∉ wanted := by
  rw [MetBy, localPart_self_iff]
  refine and_congr_right fun _ => forall₃_congr fun wanted value hc => ?_
  rw [wantedPairs, hc, Option.toList_some]
  simp only [List.mem_singleton, Prod.mk.injEq, and_true, exists_eq_left, localPart_self_iff]

/-- An element without a colon in its name is selected if an attribute of it has the wanted name
behind another colon. -/
theorem exists_selected (h : s.Legible) (hcolon : ':' ∉ s.element) :
    ∃ tag, tagName tag = s.element ∧ s.selects tag = true := by
  have hkeys : ∀ pair ∈ s.wantedPairs.map fun pair => (':' :: pair.1, pair.2),
      isKey pair.1 = true := by
    rw [List.forall_mem_map]
    rintro ⟨wanted, value⟩ hmem
    have hkey := isKey_of_isName (h.condition wanted value (Option.mem_toList.1 hmem)).1
    rw [isKey, Bool.and_eq_true] at hkey ⊢
    exact ⟨rfl, hkey.2⟩
  obtain ⟨tag, htag⟩ := exists_writtenTag (all_not_isTagBlank h.element) hkeys
  refine ⟨tag, htag.tagName_eq, (selects_iff_metBy htag ?_).2
    ⟨.whole hcolon, fun wanted value hc => ?_⟩⟩
  · rw [wantedPairs]
    cases s.condition <;> simp
  · refine ⟨':' :: wanted, ?_, @LocalPart.behind [] wanted List.not_mem_nil⟩
    rw [wantedPairs, hc]
    exact List.mem_singleton.2 rfl

/-- A selector that was read selects the tag that it describes, however that is written, exactly if
neither its element nor its attribute is named with a colon. Such a tag there always is. Some tag
with the name of its element is selected exactly if that name has no colon. -/
theorem selects_described_iff {text : List Char} (h : parse text = .ok s) :
    (∀ tag, WrittenTag tag s.element s.wantedPairs → (s.selects tag = true ↔
      ':' ∉ s.element ∧ ∀ wanted value, s.condition = some (wanted, value) → ':' ∉ wanted)) ∧
    (∃ tag, WrittenTag tag s.element s.wantedPairs) ∧
    ((∃ tag, tagName tag = s.element ∧ s.selects tag = true) ↔ ':' ∉ s.element) := by
  have hlegible := legible_of_parse h
  have hdistinct : (s.wantedPairs.map Prod.fst).Nodup := by
    rw [wantedPairs]
    cases s.condition <;> simp
  refine ⟨fun tag htag => ?_, exists_writtenTag (all_not_isTagBlank hlegible.element) ?_, ?_,
    exists_selected hlegible⟩
  · rw [selects_iff_metBy htag hdistinct, metBy_wantedPairs]
  · rintro ⟨wanted, value⟩ hmem
    exact isKey_of_isName (hlegible.condition wanted value (Option.mem_toList.1 hmem)).1
  · rintro ⟨tag, hsame, hselects⟩
    rw [selects, hsame, Bool.and_eq_true, beq_iff_eq] at hselects
    exact localPart_self_iff.1 (localPart_iff.2 hselects.1)

theorem selects_described_iff_quoted :
    let s : Selector := ⟨"property".toList, some ("name".toList, "it's <&".toList)⟩
    parse "property[ name = \"it's <&\" ]".toList = .ok s ∧
      (∀ tag, WrittenTag tag s.element s.wantedPairs → (s.selects tag = true ↔
        ':' ∉ s.element ∧ ∀ wanted value, s.condition = some (wanted, value) → ':' ∉ wanted)) ∧
      (∃ tag, WrittenTag tag s.element s.wantedPairs) ∧
      ((∃ tag, tagName tag = s.element ∧ s.selects tag = true) ↔ ':' ∉ s.element) := by
  have h : parse "property[ name = \"it's <&\" ]".toList =
      .ok ⟨"property".toList, some ("name".toList, "it's <&".toList)⟩ := by
    decide +kernel
  exact ⟨h, selects_described_iff h⟩

/-- A selector with a prefix is accepted and selects no element of its name, not even the one that
it describes. -/
theorem not_selects_prefixed :
    let s : Selector := ⟨"jr:queryString".toList, none⟩
    parse "jr:queryString".toList = .ok s ∧
      WrittenTag "jr:queryString".toList s.element s.wantedPairs ∧
      ∀ tag, tagName tag = s.element → s.selects tag = false := by
  refine ⟨by decide +kernel, ⟨⟨[], rfl, .nil rfl, nofun⟩, rfl⟩, fun tag hsame => ?_⟩
  rw [selects, hsame]
  rfl

end Selector

end ReportMigration.Markup

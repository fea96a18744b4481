import ReportMigration.Markup.Reader
import ReportMigration.Proofs.Text.Folding

/-!
# How events are written

What a part of a document looks like in the text: whatever follows it, the part is read from that
text alone. An end tag may have white space behind its name, and a document type may begin in either
case; every other part is written in one way only, and the way in which a part is written back is one
that is read as the same part.
-/

namespace ReportMigration.Markup

open Text

private theorem map_cons_eq_some {c : Char} {cut : Option (List Char × List Char)}
    {before after : List Char} :
    (cut.map fun (before, after) => (c :: before, after)) = some (before, after) ↔
      ∃ b, before = c :: b ∧ cut = some (b, after) := by
  constructor
  · intro h
    obtain ⟨⟨b, a⟩, hcut, he⟩ := Option.map_eq_some_iff.1 h
    obtain ⟨rfl, rfl⟩ := Prod.mk.inj he
    exact ⟨b, rfl, hcut⟩
  · rintro ⟨b, rfl, rfl⟩
    rfl

theorem cutAt_eq {marker text before after : List Char}
    (h : cutAt marker text = some (before, after)) : text = before ++ (marker ++ after) := by
  induction text generalizing before with
  | nil => cases h
  | cons c rest ih =>
    rw [cutAt] at h
    split at h
    · next hp =>
      obtain ⟨rfl, rfl⟩ : [] = before ∧ (c :: rest).drop marker.length = after := by simpa using h
      obtain ⟨t, ht⟩ := List.isPrefixOf_iff_prefix.1 hp
      rw [← ht, List.drop_left, List.nil_append]
    · obtain ⟨b, rfl, hb⟩ := map_cons_eq_some.1 h
      rw [ih hb, List.cons_append]

theorem cutAt_cons {marker : List Char} {c : Char} {text : List Char} (h : ¬ marker <+: c :: text) :
    cutAt marker (c :: text) = (cutAt marker text).map fun (before, after) => (c :: before, after) := by
  rw [cutAt, if_neg (by rwa [List.isPrefixOf_iff_prefix])]

theorem cutAt_prefix {marker : List Char} (hm : marker ≠ []) (rest : List Char) :
    cutAt marker (marker ++ rest) = some ([], rest) := by
  cases marker with
  | nil => exact absurd rfl hm
  | cons c marker =>
    have hp : (c :: marker).isPrefixOf (c :: (marker ++ rest)) = true :=
      List.isPrefixOf_iff_prefix.2 ⟨rest, rfl⟩
    rw [List.cons_append, cutAt, if_pos hp, ← List.cons_append, List.drop_left]

theorem cutAt_append {marker before after : List Char} (hm : marker ≠ [])
    (h : cutAt marker (before ++ (marker ++ after)) = some (before, after)) (rest : List Char) :
    cutAt marker (before ++ (marker ++ rest)) = some (before, rest) := by
  induction before with
  | nil => exact cutAt_prefix hm rest
  | cons c before ih =>
    have hno : ¬ marker <+: c :: (before ++ (marker ++ after)) := by
      intro hp
      rw [List.cons_append, cutAt, if_pos (List.isPrefixOf_iff_prefix.2 hp)] at h
      cases h
    have hno' : ¬ marker <+: c :: (before ++ (marker ++ rest)) := by
      intro hp
      have hshort : marker <+: c :: (before ++ marker) := by
        refine List.prefix_of_prefix_length_le hp ⟨rest, by simp⟩ ?_
        rw [List.length_cons, List.length_append]
        omega
      exact hno (hshort.trans ⟨after, by simp⟩)
    rw [List.cons_append, cutAt_cons hno] at h
    obtain ⟨b, he, hb⟩ := map_cons_eq_some.1 h
    obtain rfl : before = b := (List.cons.inj he).2
    rw [List.cons_append, cutAt_cons hno', ih hb]
    rfl

/-- A text with no closing angle bracket outside quotes, at whose end no quote is open, given the
quote that is open at its start. -/
def TagText : Option Char → List Char → Prop
  | none, [] => True
  | some _, [] => False
  | none, c :: rest => c ≠ '>' ∧ TagText (if c = '"' ∨ c = '\'' then some c else none) rest
  | some quote, c :: rest => TagText (if c = quote then none else some quote) rest

theorem cutTag_eq_some {quote : Option Char} {text before after : List Char} :
    cutTag quote text = some (before, after) ↔
      text = before ++ '>' :: after ∧ TagText quote before := by
  induction text generalizing quote before with
  | nil => cases quote <;> simp [cutTag]
  | cons c rest ih =>
    cases quote with
    | none =>
      rw [cutTag]
      by_cases hc : c = '>'
      · rw [if_pos hc, Option.some.injEq, Prod.mk.injEq]
        cases before with
        | nil => simp [hc, TagText]
        | cons d before =>
          simp only [List.cons_append, List.cons.injEq, TagText]
          constructor
          · exact fun h => absurd h.1 (by simp)
          · rintro ⟨⟨he, -⟩, hd, -⟩
            exact absurd (he.symm.trans hc) hd
      · rw [if_neg hc, map_cons_eq_some]
        cases before with
        | nil => simp [hc]
        | cons d before =>
          simp only [List.cons_append, List.cons.injEq, TagText]
          constructor
          · rintro ⟨b, ⟨rfl, rfl⟩, hcut⟩
            obtain ⟨hrest, ht⟩ := ih.1 hcut
            exact ⟨⟨rfl, hrest⟩, hc, ht⟩
          · rintro ⟨⟨rfl, hrest⟩, -, ht⟩
            exact ⟨before, ⟨rfl, rfl⟩, ih.2 ⟨hrest, ht⟩⟩
    | some q =>
      rw [cutTag, map_cons_eq_some]
      cases before with
      | nil => simp [TagText]
      | cons d before =>
        simp only [List.cons_append, List.cons.injEq, TagText]
        constructor
        · rintro ⟨b, ⟨rfl, rfl⟩, hcut⟩
          obtain ⟨hrest, ht⟩ := ih.1 hcut
          exact ⟨⟨rfl, hrest⟩, ht⟩
        · rintro ⟨⟨rfl, hrest⟩, ht⟩
          exact ⟨before, ⟨rfl, rfl⟩, ih.2 ⟨hrest, ht⟩⟩

theorem tagText_append_blank {quote : Option Char} (hq : quote.any isTagBlank = false)
    {text blanks : List Char} (hb : blanks.all isTagBlank = true) :
    TagText quote (text ++ blanks) ↔ TagText quote text := by
  induction text generalizing quote with
  | nil =>
    rw [List.nil_append]
    induction blanks with
    | nil => rfl
    | cons c blanks ih =>
      obtain ⟨hc, hblanks⟩ : isTagBlank c = true ∧ blanks.all isTagBlank = true := by simpa using hb
      cases quote with
      | none =>
        have hopen : ¬ (c = '"' ∨ c = '\'') := by
          rintro (rfl | rfl) <;> exact absurd hc (by decide)
        have hend : c ≠ '>' := by
          rintro rfl
          exact absurd hc (by decide)
        simp only [TagText, if_neg hopen, ih hblanks, hend, ne_eq, not_false_eq_true, and_self]
      | some q =>
        have hne : c ≠ q := by
          rintro rfl
          exact absurd hc (by simpa using hq)
        simp only [TagText, if_neg hne, ih hblanks]
  | cons c text ih =>
    rw [List.cons_append]
    cases quote with
    | none =>
      have hnext : (if c = '"' ∨ c = '\'' then some c else none).any isTagBlank = false := by
        split
        · next hc => rcases hc with rfl | rfl <;> decide
        · rfl
      simp only [TagText, ih hnext]
    | some q =>
      have hnext : (if c = q then none else some q).any isTagBlank = false := by
        split
        · rfl
        · exact hq
      simp only [TagText, ih hnext]

/-- A text that closes what it opens, given the number of brackets that are open at its start, and
closes no more. -/
def BalancedText : Nat → List Char → Prop
  | depth, [] => depth = 0
  | depth, c :: rest => ¬ (c = '>' ∧ depth = 0) ∧
      BalancedText (if c = '<' then depth + 1 else if c = '>' then depth - 1 else depth) rest

theorem cutBalanced_eq_some {depth : Nat} {text before after : List Char} :
    cutBalanced depth text = some (before, after) ↔
      text = before ++ '>' :: after ∧ BalancedText depth before := by
  induction text generalizing depth before with
  | nil => simp [cutBalanced]
  | cons c rest ih =>
    rw [cutBalanced]
    by_cases hc : c = '>' ∧ depth = 0
    · rw [if_pos hc, Option.some.injEq, Prod.mk.injEq]
      cases before with
      | nil => simp [hc.1, hc.2, BalancedText]
      | cons d before =>
        simp only [List.cons_append, List.cons.injEq, BalancedText]
        constructor
        · exact fun h => absurd h.1 (by simp)
        · rintro ⟨⟨he, -⟩, hd, -⟩
          exact absurd ⟨he ▸ hc.1, hc.2⟩ hd
    · rw [if_neg hc, map_cons_eq_some]
      cases before with
      | nil =>
        simp only [List.nil_append, List.cons.injEq, BalancedText]
        constructor
        · rintro ⟨b, h, -⟩
          exact absurd h (by simp)
        · rintro ⟨⟨he, -⟩, hd⟩
          exact absurd ⟨he, hd⟩ hc
      | cons d before =>
        simp only [List.cons_append, List.cons.injEq, BalancedText]
        constructor
        · rintro ⟨b, ⟨rfl, rfl⟩, hcut⟩
          obtain ⟨hrest, ht⟩ := ih.1 hcut
          exact ⟨⟨rfl, hrest⟩, hc, ht⟩
        · rintro ⟨⟨rfl, hrest⟩, -, ht⟩
          exact ⟨before, ⟨rfl, rfl⟩, ih.2 ⟨hrest, ht⟩⟩

theorem balancedText_append {depth : Nat} {lead text : List Char}
    (hl : ∀ c ∈ lead, c ≠ '<' ∧ c ≠ '>') :
    BalancedText depth (lead ++ text) ↔ BalancedText depth text := by
  induction lead with
  | nil => rfl
  | cons c lead ih =>
    obtain ⟨⟨hopen, hclose⟩, hlead⟩ := List.forall_mem_cons.1 hl
    rw [List.cons_append, BalancedText, if_neg hopen, if_neg hclose, ih hlead]
    exact and_iff_right fun h => hclose h.1

namespace Event

theorem source_opening (tag : List Char) : (opening tag).source = '<' :: (tag ++ ['>']) := rfl

theorem source_empty (tag : List Char) : (empty tag).source = '<' :: (tag ++ ['/', '>']) := rfl

theorem source_closing (name : List Char) : (closing name).source = '<' :: '/' :: (name ++ ['>']) :=
  rfl

theorem source_cdata (raw : List Char) :
    (cdata raw).source = '<' :: '!' :: ("[CDATA[".toList ++ (raw ++ "]]>".toList)) := rfl

theorem source_comment (raw : List Char) :
    (comment raw).source = '<' :: '!' :: '-' :: '-' :: (raw ++ "-->".toList) := rfl

theorem source_instruction (raw : List Char) :
    (instruction raw).source = '<' :: '?' :: (raw ++ "?>".toList) := rfl

theorem source_doctype (raw : List Char) :
    (doctype raw).source = '<' :: '!' :: ("DOCTYPE ".toList ++ (raw ++ ['>'])) := rfl

def isText : Event → Bool
  | text _ => true
  | _ => false

end Event

/-- The text is read as the event, and nothing behind it is. A text event ends where markup begins or
at the end of the document. -/
def Reads (raw : List Char) (event : Event) : Prop :=
  ∀ rest, (event.isText = true → rest.head?.all (· == '<') = true) →
    readEvent (raw ++ rest) = (.ok event, rest)

theorem reads_text {raw : List Char} (hne : raw ≠ []) (hraw : '<' ∉ raw) : Reads raw (.text raw) := by
  intro rest hrest
  have hall : ∀ c ∈ raw, (c != '<') = true := fun c hc => by
    simp only [bne_iff_ne]
    rintro rfl
    exact hraw hc
  have htake : (raw ++ rest).takeWhile (· != '<') = raw := by
    rw [List.takeWhile_append_of_pos hall]
    cases rest with
    | nil => simp
    | cons d rest =>
      obtain rfl : d = '<' := by simpa using hrest rfl
      simp
  have hdrop : (raw ++ rest).dropWhile (· != '<') = rest := by
    rw [List.dropWhile_append_of_pos hall]
    cases rest with
    | nil => rfl
    | cons d rest =>
      obtain rfl : d = '<' := by simpa using hrest rfl
      simp
  cases raw with
  | nil => exact absurd rfl hne
  | cons c raw =>
    rw [List.cons_append] at htake hdrop ⊢
    rw [readEvent, htake, hdrop]
    rintro rest' he
    exact hraw ((List.cons.inj he).1 ▸ List.mem_cons_self)

/-- A tag begins with none of the marks that other markup begins with. -/
def OpensTag (text : List Char) : Prop :=
  text.head?.any (fun c => c == '!' || c == '/' || c == '?') = false

theorem readMarkup_opening {text : List Char} (hne : text ≠ []) (h : OpensTag text) :
    readMarkup text = readOpening text := by
  cases text with
  | nil => exact absurd rfl hne
  | cons c text =>
    have hc : c ≠ '!' ∧ c ≠ '/' ∧ c ≠ '?' := by
      simpa [OpensTag, and_assoc] using h
    unfold readMarkup
    split <;> simp_all

theorem reads_opening {tag : List Char} (ht : TagText none tag) (ho : OpensTag tag)
    (hlast : tag.getLast? ≠ some '/') : Reads (Event.source (.opening tag)) (.opening tag) := by
  intro rest _
  have hcut : cutTag none (tag ++ '>' :: rest) = some (tag, rest) := cutTag_eq_some.2 ⟨rfl, ht⟩
  have hopens : OpensTag (tag ++ '>' :: rest) := by
    cases tag with
    | nil => rfl
    | cons c tag => exact ho
  have hsource : Event.source (.opening tag) ++ rest = '<' :: (tag ++ '>' :: rest) := by
    rw [Event.source_opening, List.cons_append, List.append_assoc, List.singleton_append]
  rw [hsource, readEvent, readMarkup_opening (by simp) hopens, readOpening, hcut]
  exact if_neg hlast

theorem reads_empty {tag : List Char} (ht : TagText none (tag ++ ['/'])) (ho : OpensTag tag)
    (hne : tag ≠ []) : Reads (Event.source (.empty tag)) (.empty tag) := by
  intro rest _
  have hcut : cutTag none (tag ++ ['/'] ++ '>' :: rest) = some (tag ++ ['/'], rest) :=
    cutTag_eq_some.2 ⟨rfl, ht⟩
  have hopens : OpensTag (tag ++ ['/'] ++ '>' :: rest) := by
    cases tag with
    | nil => exact absurd rfl hne
    | cons c tag => exact ho
  have hsource : Event.source (.empty tag) ++ rest = '<' :: (tag ++ ['/'] ++ '>' :: rest) := by
    rw [Event.source_empty, List.cons_append, List.append_assoc, List.append_assoc]
    rfl
  rw [hsource, readEvent, readMarkup_opening (by simp) hopens, readOpening, hcut]
  simp

theorem reads_closing {content : List Char} (ht : TagText none content) :
    Reads (Event.source (.closing content)) (.closing (trimName content)) := by
  intro rest _
  have hcut : cutTag none (content ++ '>' :: rest) = some (content, rest) :=
    cutTag_eq_some.2 ⟨rfl, ht⟩
  have htext : Event.source (.closing content) ++ rest = '<' :: '/' :: (content ++ '>' :: rest) := by
    rw [Event.source_closing, List.cons_append, List.cons_append, List.append_assoc,
      List.singleton_append]
  rw [htext, readEvent, readMarkup, readClosing, hcut]

theorem reads_instruction {content : List Char} (ho : content.head? ≠ some '>')
    (hcut : ∀ rest, cutAt "?>".toList (content ++ ("?>".toList ++ rest)) = some (content, rest)) :
    Reads (Event.source (.instruction content))
      (if tagName content = "xml".toList then .declaration content else .instruction content) := by
  intro rest _
  have htext : Event.source (.instruction content) ++ rest =
      '<' :: '?' :: (content ++ ("?>".toList ++ rest)) := by
    rw [Event.source_instruction, List.cons_append, List.cons_append, List.append_assoc]
  have hopen : (content ++ ("?>".toList ++ rest)).head? ≠ some '>' := by
    cases content with
    | nil => exact nofun
    | cons c content => exact ho
  rw [htext, readEvent, readMarkup, readInstruction, if_neg hopen, hcut]
  dsimp only
  split <;> rfl

theorem reads_comment {content : List Char}
    (hcut : ∀ rest, cutAt "-->".toList (content ++ ("-->".toList ++ rest)) = some (content, rest)) :
    Reads (Event.source (.comment content)) (.comment content) := by
  intro rest _
  have htext : Event.source (.comment content) ++ rest =
      '<' :: '!' :: '-' :: '-' :: (content ++ ("-->".toList ++ rest)) := by
    rw [Event.source_comment, List.cons_append, List.cons_append, List.cons_append, List.cons_append,
      List.append_assoc]
  have hprefix : "--".toList.isPrefixOf ('-' :: '-' :: (content ++ ("-->".toList ++ rest))) = true :=
    List.isPrefixOf_iff_prefix.2 ⟨_, rfl⟩
  rw [htext, readEvent, readMarkup, readComment, List.drop_succ_cons, List.drop_succ_cons,
    List.drop_zero, hcut]
  exact if_pos hprefix

theorem reads_cdata {content : List Char}
    (hcut : ∀ rest, cutAt "]]>".toList ("[CDATA[".toList ++ content ++ ("]]>".toList ++ rest)) =
      some ("[CDATA[".toList ++ content, rest)) :
    Reads (Event.source (.cdata content)) (.cdata content) := by
  intro rest _
  have htext : Event.source (.cdata content) ++ rest =
      '<' :: '!' :: ("[CDATA[".toList ++ content ++ ("]]>".toList ++ rest)) := by
    rw [Event.source_cdata, List.cons_append, List.cons_append, List.append_assoc, List.append_assoc,
      List.append_assoc]
  have hprefix : "[CDATA[".toList.isPrefixOf ("[CDATA[".toList ++ content) = true :=
    List.isPrefixOf_iff_prefix.2 ⟨_, rfl⟩
  have hmarkup : ∀ text, readMarkup ('!' :: ("[CDATA[".toList ++ text)) =
      readCdata ("[CDATA[".toList ++ text) := fun text => rfl
  rw [htext, readEvent, List.append_assoc, hmarkup, ← List.append_assoc, readCdata, hcut]
  exact if_pos hprefix

section DoctypeWord

variable {word : List Char} (hw : equalIgnoringAsciiCase word "DOCTYPE".toList = true)
include hw

private theorem lower_doctypeWord : word.map asciiLower = "DOCTYPE".toList.map asciiLower := by
  simpa [equalIgnoringAsciiCase] using hw

theorem length_doctypeWord : word.length = 7 := by
  simpa using congrArg List.length (lower_doctypeWord hw)

theorem mem_doctypeWord {c : Char} (hc : c ∈ word) :
    asciiLower c ∈ "DOCTYPE".toList.map asciiLower :=
  lower_doctypeWord hw ▸ List.mem_map_of_mem hc

end DoctypeWord

/-- The first word of a document type and the white space behind it do not count. -/
theorem balancedText_doctype {word blanks name : List Char}
    (hw : equalIgnoringAsciiCase word "DOCTYPE".toList = true) (hb : blanks.all isTagBlank = true) :
    BalancedText 0 (word ++ (blanks ++ name)) ↔ BalancedText 0 name := by
  have hword : ∀ c ∈ word, c ≠ '<' ∧ c ≠ '>' := by
    intro c hc
    have hm := mem_doctypeWord hw hc
    constructor <;> rintro rfl <;> exact absurd hm (by decide)
  have hblanks : ∀ c ∈ blanks, c ≠ '<' ∧ c ≠ '>' := by
    intro c hc
    have hm := List.all_eq_true.1 hb c hc
    constructor <;> rintro rfl <;> exact absurd hm (by decide)
  rw [balancedText_append hword, balancedText_append hblanks]

/-- A document type may begin in either case, and with any white space behind the first word. -/
theorem reads_doctype {word blanks name : List Char}
    (hd : word.head? = some 'D' ∨ word.head? = some 'd')
    (hw : equalIgnoringAsciiCase word "DOCTYPE".toList = true) (hb : blanks.all isTagBlank = true)
    (hn : name.head?.any (fun c => !isTagBlank c) = true) (ht : BalancedText 0 name) :
    Reads ('<' :: '!' :: (word ++ (blanks ++ (name ++ ['>'])))) (.doctype name) := by
  intro rest _
  have hlen := length_doctypeWord hw
  have hcut : cutBalanced 0 (word ++ (blanks ++ name) ++ '>' :: rest) =
      some (word ++ (blanks ++ name), rest) :=
    cutBalanced_eq_some.2 ⟨rfl, (balancedText_doctype hw hb).2 ht⟩
  have htake : (word ++ (blanks ++ name)).take 7 = word := List.take_left' hlen
  have hdrop : (word ++ (blanks ++ name)).drop 7 = blanks ++ name := List.drop_left' hlen
  have htrim : (blanks ++ name).dropWhile isTagBlank = name := by
    rw [List.dropWhile_append_of_pos (List.all_eq_true.1 hb)]
    cases name with
    | nil => rfl
    | cons c name =>
      have hc : isTagBlank c = false := by simpa using hn
      rw [List.dropWhile_cons_of_neg (by simp [hc])]
  have htext : '<' :: '!' :: (word ++ (blanks ++ (name ++ ['>']))) ++ rest =
      '<' :: '!' :: (word ++ (blanks ++ name) ++ '>' :: rest) := by
    simp only [List.cons_append, List.append_assoc, List.nil_append]
  have hmarkup : ∀ text, readMarkup ('!' :: (word ++ text)) = readDoctype (word ++ text) := by
    intro text
    cases word with
    | nil => cases hlen
    | cons c word =>
      rcases hd with hd | hd
      · obtain rfl : c = 'D' := Option.some.inj hd
        rfl
      · obtain rfl : c = 'd' := Option.some.inj hd
        rfl
  rw [htext, readEvent, List.append_assoc, hmarkup, ← List.append_assoc, readDoctype, hcut]
  simp only [htake, hw, Bool.not_true, Bool.false_eq_true, if_false, hdrop, htrim]
  cases name with
  | nil => cases hn
  | cons c name => rfl

theorem exists_trimName (content : List Char) :
    ∃ blanks, blanks.all isTagBlank = true ∧ content = trimName content ++ blanks := by
  have hsplit : (content.reverse.takeWhile isTagBlank) ++ content.reverse.dropWhile isTagBlank =
      content.reverse := List.takeWhile_append_dropWhile
  rw [trimName]
  split
  · exact ⟨[], rfl, (List.append_nil _).symm⟩
  · refine ⟨(content.reverse.takeWhile isTagBlank).reverse, ?_, ?_⟩
    · rw [List.all_reverse]
      exact List.all_takeWhile
    · rw [← List.reverse_append, hsplit, List.reverse_reverse]

theorem trimName_trimName (content : List Char) : trimName (trimName content) = trimName content := by
  cases hd : content.reverse.dropWhile isTagBlank with
  | nil =>
    have ht : trimName content = content := by rw [trimName, hd]
    rw [ht, ht]
  | cons c kept =>
    have ht : trimName content = (c :: kept).reverse := by rw [trimName, hd]
    have hc : isTagBlank c = false := by
      have hhead := List.head?_dropWhile_not isTagBlank content.reverse
      rw [hd] at hhead
      simpa using hhead
    rw [ht, trimName, List.reverse_reverse, List.dropWhile_cons_of_neg (by simp [hc])]

/-- The ways to write an event. An end tag may have white space behind its name, and a document type
may begin in either case; every other event is written in one way only. -/
inductive Spelling : List Char → Event → Prop
  | same {event : Event} (hne : event.source ≠ []) (h : Reads event.source event) :
    Spelling event.source event
  | closing {content : List Char} (ht : TagText none content) :
    Spelling (Event.source (.closing content)) (.closing (trimName content))
  | doctype {word blanks name : List Char}
    (hd : word.head? = some 'D' ∨ word.head? = some 'd')
    (hw : equalIgnoringAsciiCase word "DOCTYPE".toList = true) (hb : blanks.all isTagBlank = true)
    (hn : name.head?.any (fun c => !isTagBlank c) = true) (ht : BalancedText 0 name) :
    Spelling ('<' :: '!' :: (word ++ (blanks ++ (name ++ ['>'])))) (.doctype name)

theorem spelling_text {raw : List Char} (hne : raw ≠ []) (hraw : '<' ∉ raw) :
    Spelling raw (.text raw) := by
  have hsource : (Event.text raw).source ≠ [] := hne
  exact .same hsource (reads_text hne hraw)

theorem cutAt_cdataEnd {text : List Char} (h : ¬ "]]>".toList <:+: text) (rest : List Char) :
    cutAt "]]>".toList (text ++ ("]]>".toList ++ rest)) = some (text, rest) := by
  induction text with
  | nil => exact cutAt_prefix (by decide) rest
  | cons c text ih =>
    have hno : ¬ "]]>".toList <+: c :: (text ++ ("]]>".toList ++ rest)) := by
      rintro ⟨tail, ht⟩
      cases text with
      | nil => cases ht
      | cons d text =>
        cases text with
        | nil => cases ht
        | cons e text =>
          obtain ⟨rfl, rfl, rfl, -⟩ : c = ']' ∧ d = ']' ∧ e = '>' ∧ _ := by
            simpa [eq_comm] using ht
          exact h ⟨[], text, rfl⟩
    have htail : ¬ "]]>".toList <:+: text := fun ht => h (ht.trans (List.suffix_cons c text).isInfix)
    rw [List.cons_append, cutAt_cons hno, ih htail]
    rfl

theorem spelling_cdata {text : List Char} (h : ¬ "]]>".toList <:+: text) :
    Spelling (Event.source (.cdata text)) (.cdata text) := by
  have hno : ¬ "]]>".toList <:+: "[CDATA[".toList ++ text := by
    simpa [List.infix_cons_iff] using h
  exact Spelling.same (List.cons_ne_nil _ _) (reads_cdata (cutAt_cdataEnd hno))

namespace Spelling

variable {raw : List Char} {event : Event}

theorem ne_nil (h : Spelling raw event) : raw ≠ [] := by
  cases h with
  | same hne _ => exact hne
  | closing _ => exact List.cons_ne_nil _ _
  | doctype => exact List.cons_ne_nil _ _

theorem reads (h : Spelling raw event) : Reads raw event := by
  cases h with
  | same _ h => exact h
  | closing ht => exact reads_closing ht
  | doctype hd hw hb hn ht => exact reads_doctype hd hw hb hn ht

theorem back (h : Spelling raw event) : Spelling event.source event := by
  cases h with
  | same hne h => exact same hne h
  | @closing content ht =>
    obtain ⟨blanks, hb, he⟩ := exists_trimName content
    rw [he] at ht
    have hback := reads_closing ((tagText_append_blank rfl hb).1 ht)
    rw [trimName_trimName] at hback
    exact same (List.cons_ne_nil _ _) hback
  | @doctype _ _ name _ _ _ hn ht =>
    have hback : Reads ('<' :: '!' :: ("DOCTYPE".toList ++ ([' '] ++ (name ++ ['>']))))
        (.doctype name) := reads_doctype (.inl rfl) (by decide) (by decide) hn ht
    exact same (List.cons_ne_nil _ _) hback

/-- Texts with different characters behind the same start go on differently. -/
private theorem append_ne_of_ne {c d : Char} (h : c ≠ d) (lead s t x y : List Char) :
    lead ++ c :: s ++ x ≠ lead ++ d :: t ++ y := by
  intro he
  rw [List.append_assoc, List.append_assoc, List.append_cancel_left_eq] at he
  exact h (List.cons.inj he).1

private theorem apart_closing (content : List Char) :
    Event.source (.closing content) = Event.source (.closing (trimName content)) ∨
      ∀ x y, Event.source (.closing content) ++ x ≠ Event.source (.closing (trimName content)) ++ y := by
  obtain ⟨blanks, hb, he⟩ := exists_trimName content
  cases blanks with
  | nil =>
    rw [List.append_nil] at he
    exact .inl (congrArg _ (congrArg _ he))
  | cons c blanks =>
    have hc : c ≠ '>' := by
      rintro rfl
      exact absurd (List.all_eq_true.1 hb _ List.mem_cons_self) (by decide)
    have hraw : Event.source (.closing content) =
        '<' :: '/' :: trimName content ++ c :: (blanks ++ ['>']) := by
      rw [Event.source_closing]
      conv => lhs; rw [he]
      simp only [List.append_assoc, List.cons_append]
    rw [hraw]
    exact .inr (append_ne_of_ne hc ('<' :: '/' :: trimName content) (blanks ++ ['>']) [])

/-- Behind the first word of a document type there is one blank, or the text goes on differently. -/
private theorem apart_doctype {blanks name : List Char} (hb : blanks.all isTagBlank = true)
    (hn : name.head?.any (fun c => !isTagBlank c) = true) :
    blanks = [' '] ∨ ∀ x y, '<' :: '!' :: ("DOCTYPE".toList ++ (blanks ++ (name ++ ['>']))) ++ x ≠
      Event.source (.doctype name) ++ y := by
  obtain ⟨d, name, rfl⟩ : ∃ d rest, name = d :: rest := by
    cases name with
    | nil => cases hn
    | cons d rest => exact ⟨d, rest, rfl⟩
  have hd : isTagBlank d = false := by simpa using hn
  cases blanks with
  | nil =>
    have hne : d ≠ ' ' := by
      rintro rfl
      exact absurd hd (by decide)
    exact .inr (append_ne_of_ne hne ('<' :: '!' :: "DOCTYPE".toList) (name ++ ['>'])
      (d :: (name ++ ['>'])))
  | cons c blanks =>
    by_cases hc : c = ' '
    · subst hc
      cases blanks with
      | nil => exact .inl rfl
      | cons e blanks =>
        have hne : e ≠ d := by
          rintro rfl
          have he := List.all_eq_true.1 hb e (by simp)
          exact absurd he (by simp [hd])
        exact .inr (append_ne_of_ne hne ('<' :: '!' :: "DOCTYPE ".toList)
          (blanks ++ (d :: name ++ ['>'])) (name ++ ['>']))
    · exact .inr (append_ne_of_ne hc ('<' :: '!' :: "DOCTYPE".toList)
        (blanks ++ (d :: name ++ ['>'])) (d :: (name ++ ['>'])))

/-- What is written in another way than the event's own is, from some place on, quite another
text. -/
theorem apart (h : Spelling raw event) :
    raw = event.source ∨ ∀ x y, raw ++ x ≠ event.source ++ y := by
  cases h with
  | same => exact .inl rfl
  | @closing content _ => exact apart_closing content
  | @doctype word blanks name _ hw hb hn _ =>
    by_cases hword : word = "DOCTYPE".toList
    · subst hword
      exact (apart_doctype hb hn).imp_left fun he => by rw [he]; rfl
    · refine .inr fun x y he => hword ?_
      have hlen : word.length = "DOCTYPE".toList.length := length_doctypeWord hw
      have hsource : Event.source (.doctype name) =
          '<' :: '!' :: "DOCTYPE".toList ++ ' ' :: (name ++ ['>']) := rfl
      rw [hsource] at he
      simp only [List.cons_append, List.append_assoc, List.cons.injEq, true_and] at he
      exact (List.append_inj he hlen).1

theorem head_eq (h : Spelling raw event) : raw.head? = event.source.head? := by
  cases h <;> rfl

private theorem ascii_doctypeWord {word : List Char}
    (hw : equalIgnoringAsciiCase word "DOCTYPE".toList = true) : ∀ d ∈ word, d.toNat < 128 := by
  intro d hm
  have hall : ("DOCTYPE".toList.map asciiLower).all (fun e => e.toNat < 128) = true := by decide
  exact ascii_of_asciiLower (of_decide_eq_true (List.all_eq_true.1 hall _ (mem_doctypeWord hw hm)))

private theorem ascii_blanks {blanks : List Char} (hb : blanks.all isTagBlank = true) :
    ∀ d ∈ blanks, d.toNat < 128 := by
  intro d hd
  have hd' := List.all_eq_true.1 hb d hd
  simp only [isTagBlank, Bool.or_eq_true, beq_iff_eq] at hd'
  rcases hd' with ((rfl | rfl) | rfl) | rfl <;> decide

theorem count_eq (h : Spelling raw event) {c : Char} (hc : 128 ≤ c.toNat) :
    raw.count c = event.source.count c := by
  have hascii : ∀ {text : List Char}, (∀ d ∈ text, d.toNat < 128) → text.count c = 0 := by
    intro text ht
    rw [List.count_eq_zero]
    exact fun hm => absurd (ht c hm) (by omega)
  cases h with
  | same => rfl
  | @closing content _ =>
    obtain ⟨blanks, hb, he⟩ := exists_trimName content
    have hcount : content.count c = (trimName content).count c := by
      conv => lhs; rw [he]
      rw [List.count_append, hascii (ascii_blanks hb), Nat.add_zero]
    simp only [Event.source_closing, List.count_cons, List.count_append, hcount]
  | @doctype word blanks name _ hw hb _ _ =>
    have hall : "DOCTYPE ".toList.all (fun d => d.toNat < 128) = true := by decide
    have hown : ∀ d ∈ "DOCTYPE ".toList, d.toNat < 128 := fun d hd =>
      of_decide_eq_true (List.all_eq_true.1 hall d hd)
    simp only [Event.source_doctype, List.count_cons, List.count_append,
      hascii (ascii_doctypeWord hw), hascii hown, hascii (ascii_blanks hb), Nat.zero_add]

end Spelling

/-- What a reader has read, after a mark, is a spelling of the event that it answers. -/
private def Found (mark text : List Char) (step : Step) : Prop :=
  ∀ event rest, step = (.ok event, rest) →
    ∃ raw, mark ++ text = raw ++ rest ∧ Spelling raw event ∧ event.isText = false

private theorem found_closing (text : List Char) : Found ['<', '/'] text (readClosing text) := by
  intro event rest h
  rw [readClosing] at h
  split at h
  · cases h
  · next content after hcut =>
    cases h
    obtain ⟨rfl, ht⟩ := cutTag_eq_some.1 hcut
    exact ⟨_, by simp [Event.source_closing], Spelling.closing ht, rfl⟩

private theorem found_opening {text : List Char} (ho : OpensTag text) :
    Found ['<'] text (readOpening text) := by
  intro event rest h
  rw [readOpening] at h
  split at h
  · cases h
  · next content after hcut =>
    obtain ⟨rfl, ht⟩ := cutTag_eq_some.1 hcut
    have hopens : OpensTag content := by
      cases content with
      | nil => rfl
      | cons c content => exact ho
    split at h
    · next hl =>
      cases h
      have hcontent : content.dropLast ++ ['/'] = content := List.dropLast_append_getLast? _ hl
      have hne : content.dropLast ≠ [] := by
        intro hnil
        rw [hnil] at hcontent
        rw [← hcontent] at hopens
        cases hopens
      have hopens' : OpensTag content.dropLast := by
        cases hd : content.dropLast with
        | nil => rfl
        | cons c tag =>
          rw [hd] at hcontent
          rw [← hcontent] at hopens
          exact hopens
      refine ⟨Event.source (.empty content.dropLast), ?_, ?_, rfl⟩
      · conv => lhs; rw [← hcontent]
        simp [Event.source_empty]
      · refine Spelling.same (by simp [Event.source_empty]) (reads_empty ?_ hopens' hne)
        rwa [hcontent]
    · next hl =>
      cases h
      exact ⟨Event.source (.opening content), by simp [Event.source_opening],
        Spelling.same (by simp [Event.source_opening]) (reads_opening ht hopens hl), rfl⟩

private theorem found_instruction (text : List Char) :
    Found ['<', '?'] text (readInstruction text) := by
  intro event rest h
  rw [readInstruction] at h
  have hopen : text.head? ≠ some '>' := by
    intro hhead
    rw [if_pos hhead] at h
    cases h
  rw [if_neg hopen] at h
  split at h
  · cases h
  · next content after hcut =>
    have htext := cutAt_eq hcut
    rw [htext] at hcut
    have ho : content.head? ≠ some '>' := by
      intro hhead
      rw [htext, List.head?_append, hhead] at hopen
      exact hopen rfl
    have hreads := reads_instruction ho (cutAt_append (by decide) hcut)
    have hsame : event = (if tagName content = "xml".toList then .declaration content
        else .instruction content) ∧ after = rest := by
      split at h
      · next hx =>
        cases h
        exact ⟨(if_pos hx).symm, rfl⟩
      · next hx =>
        cases h
        exact ⟨(if_neg hx).symm, rfl⟩
    obtain ⟨he, rfl⟩ := hsame
    rw [← he] at hreads
    have hsource : event.source = Event.source (.instruction content) ∧ event.isText = false := by
      rw [he]
      split <;> exact ⟨rfl, rfl⟩
    refine ⟨Event.source (.instruction content), ?_, ?_, hsource.2⟩
    · rw [htext, Event.source_instruction]
      simp
    · rw [← hsource.1] at hreads ⊢
      refine Spelling.same ?_ hreads
      rw [hsource.1, Event.source_instruction]
      exact List.cons_ne_nil _ _

private theorem found_comment (text : List Char) :
    Found ['<', '!'] text (readComment text) := by
  intro event rest h
  rw [readComment] at h
  split at h
  · cases h
  · next content after hcut =>
    split at h
    · next hp =>
      cases h
      obtain ⟨tail, rfl⟩ := List.isPrefixOf_iff_prefix.1 hp
      have hdrop : ("--".toList ++ tail).drop 2 = tail := rfl
      rw [hdrop] at hcut
      have htext := cutAt_eq hcut
      rw [htext] at hcut
      refine ⟨Event.source (.comment content), ?_, ?_, rfl⟩
      · rw [htext, Event.source_comment]
        simp
      · exact Spelling.same (by simp [Event.source_comment])
          (reads_comment (cutAt_append (by decide) hcut))
    · cases h

private theorem found_cdata (text : List Char) : Found ['<', '!'] text (readCdata text) := by
  intro event rest h
  rw [readCdata] at h
  split at h
  · cases h
  · next content after hcut =>
    split at h
    · next hp =>
      cases h
      obtain ⟨raw, rfl⟩ := List.isPrefixOf_iff_prefix.1 hp
      have hdrop : ("[CDATA[".toList ++ raw).drop 7 = raw := rfl
      have htext := cutAt_eq hcut
      rw [htext] at hcut
      rw [hdrop]
      refine ⟨Event.source (.cdata raw), ?_, ?_, rfl⟩
      · rw [htext, Event.source_cdata]
        simp
      · exact Spelling.same (by simp [Event.source_cdata])
          (reads_cdata (cutAt_append (by decide) hcut))
    · cases h

private theorem found_doctype {text : List Char}
    (hd : text.head? = some 'D' ∨ text.head? = some 'd') :
    Found ['<', '!'] text (readDoctype text) := by
  intro event rest h
  rw [readDoctype] at h
  split at h
  · cases h
  · next content after hcut =>
    obtain ⟨rfl, ht⟩ := cutBalanced_eq_some.1 hcut
    split at h
    · cases h
    · next hw =>
      have hw : equalIgnoringAsciiCase (content.take 7) "DOCTYPE".toList = true := by simpa using hw
      have hlen := length_doctypeWord hw
      cases hname : (content.drop 7).dropWhile isTagBlank with
      | nil =>
        rw [hname] at h
        cases h
      | cons c name =>
        rw [hname] at h
        cases h
        have hhead : (content.take 7).head? = some 'D' ∨ (content.take 7).head? = some 'd' := by
          cases content with
          | nil => cases hlen
          | cons d content => exact hd
        have hb : ((content.drop 7).takeWhile isTagBlank).all isTagBlank = true :=
          List.all_takeWhile
        have hcontent : content =
            content.take 7 ++ ((content.drop 7).takeWhile isTagBlank ++ c :: name) := by
          rw [← hname, List.takeWhile_append_dropWhile, List.take_append_drop]
        have hc : isTagBlank c = false := by
          have hfirst := List.head?_dropWhile_not isTagBlank (content.drop 7)
          rw [hname] at hfirst
          simpa using hfirst
        have hbalanced : BalancedText 0 (c :: name) := by
          rw [hcontent] at ht
          exact (balancedText_doctype hw hb).1 ht
        refine ⟨_, ?_, Spelling.doctype hhead hw hb (by simp [hc]) hbalanced, rfl⟩
        conv => lhs; rw [hcontent]
        simp only [List.append_assoc, List.cons_append, List.nil_append]

private theorem found_markup (text : List Char) : Found ['<'] text (readMarkup text) := by
  unfold readMarkup
  split
  · rintro event rest ⟨⟩
  · exact found_cdata _
  · exact found_comment _
  · exact found_doctype (.inl rfl)
  · exact found_doctype (.inr rfl)
  · rintro event rest ⟨⟩
  · exact found_closing _
  · exact found_instruction _
  · next hne hcdata hcomment hupper hlower hmark hslash hquestion =>
    refine found_opening ?_
    cases text with
    | nil => rfl
    | cons c text =>
      have hc : c ≠ '!' ∧ c ≠ '/' ∧ c ≠ '?' :=
        ⟨fun he => hmark text (he ▸ rfl), fun he => hslash text (he ▸ rfl),
          fun he => hquestion text (he ▸ rfl)⟩
      simpa [OpensTag, and_assoc] using hc

theorem readEvent_markup {text rest : List Char} {event : Event}
    (h : readEvent ('<' :: text) = (.ok event, rest)) :
    ∃ raw, '<' :: text = raw ++ rest ∧ Spelling raw event ∧ event.isText = false := by
  rw [readEvent] at h
  exact found_markup text event rest h

theorem readEvent_eq_text {c : Char} (hc : c ≠ '<') (text : List Char) :
    readEvent (c :: text) =
      (.ok (.text ((c :: text).takeWhile (· != '<'))), (c :: text).dropWhile (· != '<')) := by
  rw [readEvent.eq_def]
  split
  · next he => exact absurd (List.cons.inj he).1 hc
  · rfl

theorem readEvent_eq_ok {text rest : List Char} {event : Event} (hne : text ≠ [])
    (h : readEvent text = (.ok event, rest)) :
    ∃ raw, text = raw ++ rest ∧ Spelling raw event ∧
      (event.isText = true → rest.head?.all (· == '<') = true) := by
  cases text with
  | nil => exact absurd rfl hne
  | cons c text =>
    by_cases hc : c = '<'
    · subst hc
      obtain ⟨raw, htext, hs, hk⟩ := readEvent_markup h
      exact ⟨raw, htext, hs, fun ht => absurd ht (by simp [hk])⟩
    · rw [readEvent_eq_text hc] at h
      cases h
      have hfirst : (c :: text).takeWhile (· != '<') ≠ [] := by simp [hc]
      have hraw : '<' ∉ (c :: text).takeWhile (· != '<') := fun hm =>
        absurd (List.mem_takeWhile_imp hm) (by decide)
      refine ⟨_, List.takeWhile_append_dropWhile.symm, spelling_text hfirst hraw, fun _ => ?_⟩
      have hhead := List.head?_dropWhile_not (· != '<') (c :: text)
      cases hd : (c :: text).dropWhile (· != '<') with
      | nil => rfl
      | cons d rest =>
        rw [hd] at hhead
        simpa using hhead

end ReportMigration.Markup

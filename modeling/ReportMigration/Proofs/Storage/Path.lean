import Mathlib.Data.List.Basic
import ReportMigration.Proofs.Text.OsText
import ReportMigration.Storage.Path

/-!
# The names of a path

A path taken apart at its last name, and the names that remain of it in the path of its directory.
-/

namespace ReportMigration.Path

theorem segments_ne_nil (path : List UInt8) : segments path ≠ [] := by
  cases path with
  | nil => simp [segments]
  | cons byte rest =>
    simp only [segments]
    split
    · simp
    · split <;> simp

theorem segments_of_notMem {part : List UInt8} (plain : slash ∉ part) : segments part = [part] := by
  induction part with
  | nil => rfl
  | cons byte rest ih =>
    rw [List.mem_cons, not_or] at plain
    simp [segments, Ne.symm plain.1, ih plain.2]

theorem segments_append_slash (path rest : List UInt8) :
    segments (path ++ slash :: rest) = segments path ++ segments rest := by
  induction path with
  | nil => simp [segments]
  | cons byte more ih =>
    by_cases sep : byte = slash
    · simp [segments, sep, ih]
    · obtain ⟨first, others, cut⟩ := List.exists_cons_of_ne_nil (segments_ne_nil more)
      simp [segments, sep, ih, cut]

theorem notMem_of_mem_segments {path part : List UInt8} (member : part ∈ segments path) :
    slash ∉ part := by
  induction path generalizing part with
  | nil =>
    rw [segments, List.mem_singleton] at member
    simp [member]
  | cons byte rest ih =>
    obtain ⟨first, others, cut⟩ := List.exists_cons_of_ne_nil (segments_ne_nil rest)
    rw [cut] at ih
    by_cases sep : byte = slash
    · simp only [segments, sep, if_true, List.mem_cons, cut] at member
      obtain rfl | member := member
      · simp
      · exact ih (List.mem_cons.2 member)
    · simp only [segments, sep, if_false, cut, List.mem_cons] at member
      obtain rfl | member := member
      · rw [List.mem_cons, not_or]
        exact ⟨Ne.symm sep, ih List.mem_cons_self⟩
      · exact ih (List.mem_cons_of_mem _ member)

theorem of_mem_names {path name : OsText} (member : name ∈ names path) :
    name ≠ ⟨[]⟩ ∧ slash ∉ name.bytes := by
  obtain ⟨part, inside, rfl⟩ := List.mem_map.1 member
  obtain ⟨inside, nonempty⟩ := List.mem_filter.1 inside
  refine ⟨?_, notMem_of_mem_segments inside⟩
  rintro ⟨⟩
  exact nomatch nonempty

theorem unite_cons {part : List UInt8} {parts : List (List UInt8)} (more : parts ≠ []) :
    unite (part :: parts) = part ++ slash :: unite parts := by
  obtain ⟨next, others, rfl⟩ := List.exists_cons_of_ne_nil more
  simp [unite, List.intercalate]

theorem segments_unite {parts : List (List UInt8)} (nonempty : parts ≠ [])
    (plain : ∀ part ∈ parts, slash ∉ part) : segments (unite parts) = parts := by
  induction parts with
  | nil => exact absurd rfl nonempty
  | cons part rest ih =>
    have first : segments part = [part] := segments_of_notMem (plain part List.mem_cons_self)
    by_cases last : rest = []
    · subst last
      simpa [unite, List.intercalate] using first
    · rw [unite_cons last, segments_append_slash, first,
        ih last fun other member => plain other (List.mem_cons_of_mem _ member)]
      rfl

/-- What may stand in front of a name in a path: nothing, or something that ends with a slash. -/
def Above (front : List UInt8) : Prop :=
  front = [] ∨ ∃ path, front = path ++ [slash]

theorem Above.append {front more : List UInt8} (first : Above front) (second : Above more) :
    Above (front ++ more) := by
  obtain rfl | ⟨path, rfl⟩ := second
  · simpa using first
  · exact .inr ⟨front ++ path, by simp⟩

theorem exists_last (path : List UInt8) :
    ∃ front last, path = front ++ last ∧ Above front ∧ slash ∉ last := by
  induction path with
  | nil => exact ⟨[], [], rfl, .inl rfl, by simp⟩
  | cons byte rest ih =>
    obtain ⟨front, last, rfl, rfl | ⟨path, rfl⟩, plain⟩ := ih
    · by_cases sep : byte = slash
      · exact ⟨[slash], last, by simp [sep], .inr ⟨[], rfl⟩, plain⟩
      · exact ⟨[], byte :: last, rfl, .inl rfl, by simp [plain, Ne.symm sep]⟩
    · exact ⟨byte :: path ++ [slash], last, by simp, .inr ⟨byte :: path, rfl⟩, plain⟩

theorem names_append {front last : List UInt8} (above : Above front) (plain : slash ∉ last)
    (named : last ≠ []) : names ⟨front ++ last⟩ = names ⟨front⟩ ++ [⟨last⟩] := by
  obtain rfl | ⟨path, rfl⟩ := above
  · simp [names, segments, segments_of_notMem plain, named]
  · simp [names, segments_append_slash, segments_of_notMem plain, segments, named]

theorem names_ne_nil {path : OsText} (given : path ≠ ⟨[]⟩) (flat : endsWithSlash path = false) :
    names path ≠ [] := by
  obtain ⟨bytes⟩ := path
  obtain ⟨front, last, rfl, above, plain⟩ := exists_last bytes
  by_cases named : last = []
  · subst named
    obtain rfl | ⟨text, rfl⟩ := above
    · exact absurd rfl given
    · simp [endsWithSlash] at flat
  · rw [names_append above plain named]
    simp

theorem isAbsolute_append {front last : List UInt8} (plain : slash ∉ last) :
    isAbsolute ⟨front ++ last⟩ = isAbsolute ⟨front⟩ := by
  cases front with
  | cons byte rest => simp [isAbsolute]
  | nil =>
    cases last with
    | nil => rfl
    | cons byte rest =>
      rw [List.mem_cons, not_or] at plain
      simp [isAbsolute, Ne.symm plain.1]

theorem endsWithSlash_append {front last : List UInt8} (plain : slash ∉ last) (named : last ≠ []) :
    endsWithSlash ⟨front ++ last⟩ = false := by
  obtain ⟨most, byte, rfl⟩ := (List.eq_nil_or_concat' last).resolve_left named
  have apart : slash ≠ byte := fun same => plain (same ▸ by simp)
  simp [endsWithSlash, ← List.append_assoc, apart.symm]

/-- Two paths that differ in nothing but their last names, which lead somewhere else. -/
structure Neighbours (path other : OsText) : Prop where
  names : ∃ front name name', names path = front ++ [name] ∧ names other = front ++ [name'] ∧
    (name ≠ here ∧ name ≠ up) ∧ name' ≠ here ∧ name' ≠ up
  absolute : isAbsolute other = isAbsolute path
  flat : endsWithSlash path = false
  flat' : endsWithSlash other = false

/-- The last stretch of a path is the name of something else than a directory on its way. -/
def IsProper (last : List UInt8) : Prop :=
  last ≠ [] ∧ last ≠ here.bytes ∧ last ≠ up.bytes

theorem IsProper.mk_ne {last : List UInt8} (proper : IsProper last) :
    OsText.mk last ≠ here ∧ OsText.mk last ≠ up :=
  ⟨fun same => proper.2.1 (congrArg OsText.bytes same),
    fun same => proper.2.2 (congrArg OsText.bytes same)⟩

theorem neighbours_append {front last last' : List UInt8} (above : Above front)
    (plain : slash ∉ last) (proper : IsProper last) (plain' : slash ∉ last')
    (proper' : IsProper last') : Neighbours ⟨front ++ last⟩ ⟨front ++ last'⟩ := by
  refine ⟨⟨_, _, _, names_append above plain proper.1, names_append above plain' proper'.1,
    proper.mk_ne, proper'.mk_ne⟩, ?_, endsWithSlash_append plain proper.1,
    endsWithSlash_append plain' proper'.1⟩
  rw [isAbsolute_append plain, isAbsolute_append plain']

theorem exists_unite_concat (parts : List (List UInt8)) :
    ∃ front, Above front ∧ ∀ last, unite (parts ++ [last]) = front ++ last := by
  induction parts with
  | nil => exact ⟨[], .inl rfl, fun last => by simp [unite, List.intercalate]⟩
  | cons part rest ih =>
    obtain ⟨front, above, spelt⟩ := ih
    have first : Above (part ++ [slash]) := .inr ⟨part, rfl⟩
    refine ⟨(part ++ [slash]) ++ front, first.append above, fun last => ?_⟩
    rw [List.cons_append, unite_cons (by simp), spelt]
    simp

theorem exists_ofNames_concat (above : List OsText) :
    ∃ front, Above front ∧ ∀ name, ofNames (above ++ [name]) = ⟨front ++ name.bytes⟩ := by
  obtain ⟨front, leads, spelt⟩ := exists_unite_concat (above.map OsText.bytes)
  refine ⟨front, leads, fun name => ?_⟩
  rw [ofNames, List.map_append, List.map_singleton, spelt]

theorem ofNames_append (above : List OsText) (name more : OsText) :
    ofNames (above ++ [name]) ++ more = ofNames (above ++ [name ++ more]) := by
  obtain ⟨front, -, spelt⟩ := exists_ofNames_concat above
  rw [spelt, spelt, ← OsText.bytes_inj]
  simp

/-- What a base puts in front of a path does not depend on what the path goes on with. -/
theorem exists_join (base : OsText) {path : OsText} (nonempty : path.bytes ≠ []) :
    ∃ front, Above front ∧
      ∀ more : OsText, join base (path ++ more) = ⟨front ++ path.bytes ++ more.bytes⟩ := by
  have absolute : ∀ more : OsText, isAbsolute (path ++ more) = isAbsolute path := by
    obtain ⟨byte, rest, spelt⟩ := List.exists_cons_of_ne_nil nonempty
    simp [isAbsolute, spelt]
  simp only [join, absolute, ← OsText.bytes_inj]
  split
  · exact ⟨[], .inl rfl, by simp⟩
  · split
    · next ends =>
      rw [endsWithSlash, beq_iff_eq, List.getLast?_eq_some_iff] at ends
      exact ⟨base.bytes, .inr ends, by simp⟩
    · exact ⟨base.bytes ++ [slash], .inr ⟨_, rfl⟩, by simp⟩

theorem trimEnd_isPrefix (parts : List (List UInt8)) : trimEnd parts <+: parts := by
  rw [trimEnd, ← List.reverse_suffix, List.reverse_reverse]
  exact List.dropWhile_suffix _

theorem trimEnd_dropLast_isPrefix (parts : List (List UInt8)) :
    trimEnd (trimEnd parts).dropLast <+: parts :=
  (trimEnd_isPrefix _).trans ((List.dropLast_prefix _).trans (trimEnd_isPrefix _))

def namesAmong (parts : List (List UInt8)) : List OsText :=
  (parts.filter (!·.isEmpty)).map OsText.mk

theorem namesAmong_isPrefix {parts more : List (List UInt8)} (kept : parts <+: more) :
    namesAmong parts <+: namesAmong more :=
  (kept.filter _).map _

theorem namesAmong_unite {parts : List (List UInt8)} (plain : ∀ part ∈ parts, slash ∉ part) :
    namesAmong (segments (unite parts)) = namesAmong parts := by
  by_cases nothing : parts = []
  · subst nothing
    rfl
  · rw [segments_unite nothing plain]

theorem names_parent {path directory : OsText} (h : parent path = some directory) :
    names directory <+: names path := by
  have plain : ∀ part ∈ segments path.bytes, slash ∉ part := fun _ => notMem_of_mem_segments
  have kept := fun parts => trimEnd_dropLast_isPrefix parts
  change namesAmong (segments directory.bytes) <+: namesAmong (segments path.bytes)
  revert h
  unfold parent
  cases cut : segments path.bytes with
  | nil => exact fun h => nomatch h
  | cons first rest =>
    rw [cut] at plain
    have inner : ∀ part ∈ trimEnd (trimEnd rest).dropLast, slash ∉ part := fun part member =>
      plain part (List.mem_cons_of_mem _ ((kept rest).subset member))
    cases first with
    | nil =>
      dsimp only
      split
      · exact fun h => nomatch h
      · intro h
        obtain rfl := Option.some.inj h
        have step : namesAmong (segments (unite (trimEnd (trimEnd rest).dropLast))) <+:
            namesAmong rest := by
          rw [namesAmong_unite inner]
          exact namesAmong_isPrefix (kept rest)
        simpa [segments, namesAmong] using step
    | cons byte first =>
      dsimp only
      split
      · intro h
        obtain rfl := Option.some.inj h
        exact List.nil_prefix
      · intro h
        obtain rfl := Option.some.inj h
        rw [segments_unite (by simp)]
        · exact namesAmong_isPrefix (List.cons_prefix_cons.2 ⟨rfl, kept rest⟩)
        · intro part member
          obtain rfl | member := List.mem_cons.1 member
          · exact plain _ List.mem_cons_self
          · exact inner part member

theorem isAbsolute_parent {path directory : OsText} (h : parent path = some directory) :
    isAbsolute directory = isAbsolute path := by
  revert h
  unfold parent isAbsolute
  cases path.bytes with
  | nil => simp [segments, trimEnd]
  | cons byte more =>
    by_cases sep : byte = slash
    · subst sep
      simp only [segments, if_true]
      split
      · exact fun h => nomatch h
      · intro h
        obtain rfl := Option.some.inj h
        simp
    · obtain ⟨first, others, cut⟩ := List.exists_cons_of_ne_nil (segments_ne_nil more)
      simp only [segments, sep, if_false, cut]
      split
      · intro h
        obtain rfl := Option.some.inj h
        simp [sep]
      · intro h
        obtain rfl := Option.some.inj h
        cases trimEnd (trimEnd others).dropLast <;> simp [unite, List.intercalate]

theorem names_append_slash (base path : List UInt8) :
    names ⟨base ++ slash :: path⟩ = names ⟨base⟩ ++ names ⟨path⟩ := by
  simp [names, segments_append_slash]

theorem names_join {path : OsText} (relative : isAbsolute path = false) (base : OsText) :
    names (join base path) = names base ++ names path := by
  obtain ⟨base⟩ := base
  rw [join, relative, Bool.false_or]
  split
  · next nothing =>
    obtain rfl : base = [] := by simpa [OsText.isEmpty] using nothing
    rfl
  · split
    · next ends =>
      rw [endsWithSlash, beq_iff_eq, List.getLast?_eq_some_iff] at ends
      obtain ⟨text, rfl⟩ := ends
      have joined : (⟨text ++ [slash]⟩ : OsText) ++ path = ⟨text ++ slash :: path.bytes⟩ := by
        rw [← OsText.bytes_inj]
        simp
      rw [joined, names_append_slash, names_append_slash text []]
      simp [names, segments]
    · have joined : (⟨base⟩ : OsText) ++ ⟨[slash]⟩ ++ path = ⟨base ++ slash :: path.bytes⟩ := by
        rw [← OsText.bytes_inj]
        simp
      rw [joined, names_append_slash]

theorem isAbsolute_join {path : OsText} (relative : isAbsolute path = false) (base : OsText) :
    isAbsolute (join base path) = isAbsolute base := by
  obtain ⟨base⟩ := base
  rw [join, relative, Bool.false_or]
  cases base with
  | nil => exact relative
  | cons byte rest =>
    rw [if_neg (by simp [OsText.isEmpty])]
    split <;> simp [isAbsolute]

theorem names_ofNames {names : List OsText} (nonempty : ∀ name ∈ names, name ≠ ⟨[]⟩)
    (plain : ∀ name ∈ names, slash ∉ name.bytes) : Path.names (ofNames names) = names := by
  have plain' : ∀ part ∈ names.map OsText.bytes, slash ∉ part := by simpa using plain
  have all : (names.map OsText.bytes).filter (!·.isEmpty) = names.map OsText.bytes := by
    rw [List.filter_eq_self]
    simpa [← OsText.bytes_inj] using nonempty
  change namesAmong (segments (unite (names.map OsText.bytes))) = names
  rw [namesAmong_unite plain', namesAmong, all, List.map_map]
  exact List.map_id names

theorem isAbsolute_ofNames {names : List OsText} (nonempty : ∀ name ∈ names, name ≠ ⟨[]⟩)
    (plain : ∀ name ∈ names, slash ∉ name.bytes) : isAbsolute (ofNames names) = false := by
  cases names with
  | nil => rfl
  | cons name rest =>
    have named : name.bytes ≠ [] := fun nothing =>
      nonempty name List.mem_cons_self (OsText.bytes_inj.1 nothing)
    obtain ⟨byte, more, spelt⟩ := List.exists_cons_of_ne_nil named
    have sep : byte ≠ slash := by
      rintro rfl
      exact plain name List.mem_cons_self (spelt ▸ List.mem_cons_self)
    have first : (ofNames (name :: rest)).bytes.head? = some byte := by
      rw [ofNames, List.map_cons, spelt]
      by_cases last : rest.map OsText.bytes = []
      · rw [last]
        simp [unite, List.intercalate]
      · rw [unite_cons last]
        rfl
    rw [isAbsolute, first]
    simpa using sep

end ReportMigration.Path

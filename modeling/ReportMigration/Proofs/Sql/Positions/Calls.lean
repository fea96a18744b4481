import ReportMigration.Proofs.Sql.Carry
import ReportMigration.Proofs.Sql.Positions.Commas

/-!
# Calls by their positions

A call rule as a loop over byte positions: the openers are spans of the text that were found before,
and for every call that is open the loop records where the call and its argument begin in the output.
Every slice and every truncation of the loop exists, whatever the spans, as long as they lie one
behind the other where the text may be cut, and whatever the transform answers. The state of the
reader of characters says why: what is recorded is where its open parentheses begin.
-/

namespace ReportMigration.Sql.Positions

open Text CallRule

/-- How far a text is written: the output, for every open parenthesis from the innermost outwards
where its call and the argument begin in the output, if it belongs to a call, the openers ahead, the
position in the text, and whether a call was replaced. -/
structure Progress where
  out : List Char
  stack : List (Option (ℕ × ℕ))
  openers : List (ℕ × ℕ)
  position : ℕ
  changed : Bool

namespace Progress

/-- Copies the text up to a position. -/
def copyTo (sql : List Char) (m : Progress) (stop : ℕ) : Option Progress := do
  let text ← slice sql m.position stop
  pure { m with out := m.out ++ text, position := stop }

/-- Copies an opener and records where it begins and ends in the output. -/
def openCall (sql : List Char) (m : Progress) (stop : ℕ) : Option Progress := do
  let text ← slice sql m.position stop
  pure
    { m with
      out := m.out ++ text
      stack := some (byteLength m.out, byteLength (m.out ++ text)) :: m.stack
      openers := m.openers.tail
      position := stop }

/-- Closes the innermost parenthesis. The output is cut back to where a call begins that is replaced. -/
def close (rule : CallRule) (m : Progress) : Option Progress :=
  match m.stack with
  | some (callStart, argsStart) :: stack => do
    let inside ← slice m.out argsStart (byteLength m.out)
    let args ← splitArguments inside
    match rule.transform args with
    | some text => do
      let front ← truncate m.out callStart
      pure { m with out := front ++ text, stack := stack, position := m.position + 1, changed := true }
    | none => pure { m with out := m.out ++ [')'], stack := stack, position := m.position + 1 }
  | stack => some { m with out := m.out ++ [')'], stack := stack.tail, position := m.position + 1 }

def readByte (rule : CallRule) (sql : List Char) (m : Progress) : Option Progress := do
  let b ← (bytes sql)[m.position]?
  if b = '\''.toUInt8 then m.copyTo sql (skipLiteral sql m.position)
  else if b = '('.toUInt8 then
    pure { m with out := m.out ++ ['('], stack := none :: m.stack, position := m.position + 1 }
  else if b = ')'.toUInt8 then m.close rule
  else do
    let rest ← slice sql m.position (byteLength sql)
    m.copyTo sql (m.position + rest.head?.elim 1 Char.utf8Size)

/-- The openers that do not begin in front of the position. -/
def pending (m : Progress) : List (ℕ × ℕ) :=
  m.openers.dropWhile fun span => span.1 < m.position

/-- Reads on from the position, where an opener begins or not. -/
def turn (rule : CallRule) (sql : List Char) (m : Progress) : Option Progress :=
  match m.pending.head?.filter fun span => span.1 = m.position with
  | some span => { m with openers := m.pending }.openCall sql span.2
  | none => { m with openers := m.pending }.readByte rule sql

def left (sql : List Char) (m : Progress) : ℕ :=
  byteLength sql - m.position + m.openers.length

/-- Reads to the end of the text. A turn fails that cuts where it may not cut, and one after which as
much is left as before. -/
def runFrom (rule : CallRule) (sql : List Char) (m : Progress) : Option Progress :=
  if m.position < byteLength sql then
    match m.turn rule sql with
    | some next => if next.left sql < m.left sql then runFrom rule sql next else none
    | none => none
  else some m
termination_by m.left sql

end Progress

/-- The text after a rule whose openers are the given spans, if it replaced a call. -/
def applyAt (rule : CallRule) (openers : List (ℕ × ℕ)) (sql : List Char) :
    Option (Option (List Char)) :=
  if openers = [] then some none
  else (Progress.runFrom rule sql ⟨[], [], openers, 0, false⟩).map fun m =>
    if m.changed then some m.out else none

/-- Where the open parentheses begin and end in the output, if they belong to calls. -/
def positions : List Frame → List (Option (ℕ × ℕ))
  | [] => []
  | f :: frames =>
    f.opener.map (fun o => (byteLength (opened frames ++ f.before.reverse),
      byteLength (opened frames ++ (f.before.reverse ++ o)))) :: positions frames

/-- The loop has written what the reader of characters has, and recorded where its parentheses are. -/
structure Tracks (m : Progress) (s : State) : Prop where
  out : m.out = s.text
  stack : m.stack = positions s.frames
  changed : m.changed = s.replaced

variable {m : Progress} {s : State} {rule : CallRule} {sql front rest : List Char}

theorem text_write (s : State) (text : List Char) : (s.write text).text = s.text ++ text := by
  rw [State.text_eq, State.text_eq, State.write]
  simp

theorem text_push (s : State) (opener : Option (List Char)) :
    (s.push opener).text = s.text ++ opener.getD ['('] := by
  rw [State.text_eq, State.text_eq, State.push, opened_cons]
  simp

theorem text_push_opened (s : State) (o : List Char) :
    positions (s.push (some o)).frames =
      some (byteLength s.text, byteLength (s.text ++ o)) :: positions s.frames := by
  rw [State.text_eq, List.append_assoc]
  rfl

/-- The step succeeds, and what it leaves tracks a state, at a position with openers ahead. -/
def Lands (step : Option Progress) (s : State) (position : ℕ) (openers : List (ℕ × ℕ)) : Prop :=
  ∃ m, step = some m ∧ Tracks m s ∧ m.position = position ∧ m.openers = openers

theorem lands_copyTo (h : Tracks m s) {text : List Char} (hsql : sql = front ++ (text ++ rest))
    (hp : m.position = byteLength front) : Lands (m.copyTo sql (byteLength (front ++ text)))
      (s.write text) (byteLength (front ++ text)) m.openers := by
  rw [Progress.copyTo, hsql, hp, slice_append]
  exact ⟨_, rfl, ⟨by rw [text_write, ← h.out], h.stack, h.changed⟩, rfl, rfl⟩

theorem lands_openCall (h : Tracks m s) {o : List Char} (hsql : sql = front ++ (o ++ rest))
    (hp : m.position = byteLength front) : Lands (m.openCall sql (byteLength (front ++ o)))
      (s.push (some o)) (byteLength (front ++ o)) m.openers.tail := by
  rw [Progress.openCall, hsql, hp, slice_append]
  refine ⟨_, rfl, ⟨?_, ?_, h.changed⟩, rfl, rfl⟩
  · rw [text_push, ← h.out]
    rfl
  · rw [text_push_opened, ← h.out, ← h.stack]

theorem lands_close (h : Tracks m s) :
    Lands (m.close rule) (rule.close s) (m.position + 1) m.openers := by
  have hcopy : (s.copy ')').text = s.text ++ [')'] := text_write s [')']
  cases hf : s.frames with
  | nil =>
    have hstack : m.stack = [] := by rw [h.stack, hf, positions]
    rw [close_nil hf, Progress.close, hstack]
    exact ⟨_, rfl, ⟨by rw [hcopy, h.out], by rw [State.copy, hf, positions, List.tail_nil], h.changed⟩,
      rfl, rfl⟩
  | cons f frames =>
    have hout : m.out =
        opened frames ++ (f.before.reverse ++ (f.opener.getD ['('] ++ s.written.reverse)) := by
      rw [h.out, State.text_eq, hf, opened_cons]
      simp only [List.append_assoc]
    rw [close_cons hf, Progress.close, h.stack, hf, positions]
    cases ho : f.opener with
    | none =>
      rw [ho] at hout
      refine ⟨_, rfl, ⟨?_, rfl, ?_⟩, rfl, rfl⟩
      · simp [State.text_eq, settled, replacement, hout]
      · simp [replacement, h.changed]
    | some o =>
      rw [ho, Option.getD_some] at hout
      have hinside : slice m.out (byteLength (opened frames ++ (f.before.reverse ++ o)))
          (byteLength m.out) = some s.written.reverse := by
        have hslice := slice_rest (opened frames ++ (f.before.reverse ++ o)) s.written.reverse
        rwa [List.append_assoc, List.append_assoc, ← hout] at hslice
      have htruncate : truncate m.out (byteLength (opened frames ++ f.before.reverse)) =
          some (opened frames ++ f.before.reverse) := by
        rw [hout, ← List.append_assoc]
        exact truncate_append _ _
      simp only [Option.map_some, hinside, splitArguments_eq, Option.bind_eq_bind, Option.bind_some]
      cases ht : rule.transform (Arguments.split s.written.reverse) with
      | none =>
        refine ⟨_, rfl, ⟨?_, rfl, ?_⟩, rfl, rfl⟩
        · simp [State.text_eq, settled, replacement, ht, hout]
        · simp [replacement, ht, h.changed]
      | some text =>
        simp only [htruncate, Option.bind_some]
        refine ⟨_, rfl, ⟨?_, rfl, ?_⟩, rfl, rfl⟩
        · simp [State.text_eq, settled, replacement, ht]
        · simp [replacement, ht]

private theorem getElem?_bytes (front rest : List Char) (c : Char) :
    ∃ b, (bytes (front ++ c :: rest))[byteLength front]? = some b ∧
      ∀ d : Char, d.toNat < 0x80 → (b = d.toUInt8 ↔ c = d) := by
  cases hb : String.utf8EncodeChar c with
  | nil => exact absurd hb String.utf8EncodeChar_ne_nil
  | cons b bs =>
    refine ⟨b, ?_, fun d hd => ⟨?_, ?_⟩⟩
    · rw [bytes_append, ← length_bytes, List.getElem?_append_right le_rfl, Nat.sub_self, bytes_cons, hb]
      rfl
    · rintro rfl
      exact (mem_utf8EncodeChar_iff hd).1 (hb ▸ List.mem_cons_self)
    · rintro rfl
      rw [utf8EncodeChar_ascii hd] at hb
      exact (List.cons.inj hb).1.symm

theorem lands_readByte_quote (rule : CallRule) (h : Tracks m s) (hsql : sql = front ++ '\'' :: rest)
    (hp : m.position = byteLength front) :
    Lands (m.readByte rule sql) (s.write ('\'' :: (Literal.split rest).1))
      (byteLength (front ++ '\'' :: (Literal.split rest).1)) m.openers := by
  obtain ⟨b, hb, hascii⟩ := getElem?_bytes front rest '\''
  have hsplit : sql = front ++ ('\'' :: (Literal.split rest).1 ++ (Literal.split rest).2) := by
    rw [hsql, List.cons_append, Literal.split_append]
  rw [Progress.readByte, hp, hsql, hb, ← hsql]
  simp only [Option.bind_eq_bind, Option.bind_some, if_pos ((hascii '\'' (by decide)).2 rfl)]
  rw [hsql, skipLiteral_eq, ← hsql]
  exact lands_copyTo h hsplit hp

theorem readChar_quoted {c : Char} (hc : c ≠ '\'') (hs : s.quoted = false) :
    (rule.readChar s c).quoted = false := by
  rw [readChar, if_neg hc, if_neg (by simp [hs])]
  split
  · exact hs
  · split
    · rw [close_quoted, hs]
    · rw [State.copy_quoted, hs]

theorem lands_readByte (rule : CallRule) (h : Tracks m s) {c : Char} (hsql : sql = front ++ c :: rest)
    (hp : m.position = byteLength front) (hc : c ≠ '\'') (hs : s.quoted = false) :
    Lands (m.readByte rule sql) (rule.readChar s c) (byteLength (front ++ [c])) m.openers := by
  obtain ⟨b, hb, hascii⟩ := getElem?_bytes front rest c
  have hq : b ≠ '\''.toUInt8 := fun he => hc ((hascii '\'' (by decide)).1 he)
  have hnext : ∀ {d : Char}, d.utf8Size = 1 → c = d → byteLength (front ++ [c]) = m.position + 1 := by
    rintro d hd rfl
    rw [byteLength_append, hp, byteLength_cons, hd]
    rfl
  rw [Progress.readByte, hp, hsql, hb, ← hsql, readChar, if_neg hc, if_neg (by simp [hs])]
  simp only [Option.bind_eq_bind, Option.bind_some, if_neg hq]
  by_cases ho : c = '('
  · rw [if_pos ((hascii '(' (by decide)).2 ho), if_pos ho, hnext rfl ho]
    exact ⟨_, rfl, ⟨by rw [text_push, ← h.out]; rfl, by rw [h.stack]; rfl, h.changed⟩, by rw [hp], rfl⟩
  rw [if_neg (fun he => ho ((hascii '(' (by decide)).1 he)), if_neg ho]
  by_cases hcl : c = ')'
  · rw [if_pos ((hascii ')' (by decide)).2 hcl), if_pos hcl, hnext rfl hcl]
    exact lands_close h
  rw [if_neg (fun he => hcl ((hascii ')' (by decide)).1 he)), if_neg hcl]
  have hrest : slice sql (byteLength front) (byteLength sql) = some (c :: rest) := by
    rw [hsql]
    exact slice_rest front (c :: rest)
  have hstop : byteLength front + (c :: rest).head?.elim 1 Char.utf8Size =
      byteLength (front ++ [c]) := by
    rw [byteLength_append]
    rfl
  rw [hrest, Option.bind_some, hstop]
  exact lands_copyTo h hsql hp

theorem lands_turn_opener (rule : CallRule) (h : Tracks m s) {o : List Char}
    (hsql : sql = front ++ (o ++ rest)) (hp : m.position = byteLength front) {later : List (ℕ × ℕ)}
    (hpending : m.pending = (byteLength front, byteLength (front ++ o)) :: later) :
    Lands (m.turn rule sql) (s.push (some o)) (byteLength (front ++ o)) later := by
  have hopen := lands_openCall (m := { m with openers := m.pending })
    ⟨h.out, h.stack, h.changed⟩ hsql hp
  rw [hpending, List.tail_cons, hp] at hopen
  rw [Progress.turn, hpending, List.head?_cons, hp, Option.filter_some_pos (by simp)]
  exact hopen

theorem turn_eq_readByte (hpending : m.pending.head?.any (fun span => span.1 = m.position) = false) :
    m.turn rule sql = { m with openers := m.pending }.readByte rule sql := by
  have hnone : (m.pending.head?.filter fun span => span.1 = m.position) = none := by
    cases hh : m.pending.head? with
    | none => rfl
    | some span =>
      rw [hh] at hpending
      exact Option.filter_some_neg (by simpa using hpending)
  rw [Progress.turn, hnone]

/-- The spans lie one behind the other, behind a position, between places where the text may be cut. -/
def Spans (text : List Char) : ℕ → List (ℕ × ℕ) → Prop
  | _, [] => True
  | last, (start, stop) :: spans => last ≤ start ∧ start ≤ stop ∧
      Boundary text start ∧ Boundary text stop ∧ Spans text stop spans

theorem Spans.mono {text : List Char} {last last' : ℕ} {spans : List (ℕ × ℕ)}
    (h : Spans text last spans) (hle : last' ≤ last) : Spans text last' spans := by
  cases spans with
  | nil => trivial
  | cons span spans => exact ⟨hle.trans h.1, h.2⟩

theorem Spans.dropWhile {text : List Char} {last : ℕ} {spans : List (ℕ × ℕ)}
    (h : Spans text last spans) (test : ℕ × ℕ → Bool) : Spans text last (spans.dropWhile test) := by
  induction spans generalizing last with
  | nil => trivial
  | cons span spans ih =>
    rw [List.dropWhile_cons]
    split
    · exact (ih h.2.2.2.2).mono (h.1.trans h.2.1)
    · exact h

/-- The loop is at a place where the text may be cut, outside literals, with spans ahead, and tracks a
state. -/
structure Sound (sql : List Char) (m : Progress) : Prop where
  tracks : ∃ s : State, Tracks m s ∧ s.quoted = false
  boundary : Boundary sql m.position
  spans : Spans sql 0 m.openers

theorem Lands.sound {step : Option Progress} {s : State} {position : ℕ} {openers : List (ℕ × ℕ)}
    (h : Lands step s position openers) (hs : s.quoted = false) (hb : Boundary sql position)
    (hspans : Spans sql 0 openers) :
    ∃ m, step = some m ∧ Sound sql m ∧ m.position = position ∧ m.openers = openers := by
  obtain ⟨m, rfl, ht, rfl, rfl⟩ := h
  exact ⟨m, rfl, ⟨⟨s, ht, hs⟩, hb, hspans⟩, rfl, rfl⟩

private theorem Lands.sound_less {step : Option Progress} {t : List Char}
    (h : Lands step s (byteLength (front ++ t)) m.pending) (hsql : sql = front ++ (t ++ rest))
    (hp : m.position = byteLength front) (ht : t ≠ []) (hs : s.quoted = false)
    (hspans : Spans sql 0 m.pending) :
    ∃ next, step = some next ∧ Sound sql next ∧ next.left sql < m.left sql := by
  have hfewer : m.pending.length ≤ m.openers.length := (List.dropWhile_suffix _).length_le
  have hpos := byteLength_pos ht
  have hsize := congrArg byteLength hsql
  rw [← List.append_assoc] at hsql
  obtain ⟨next, hstep, hsound, hposition, hopeners⟩ := h.sound hs (hsql ▸ boundary_append _ _) hspans
  refine ⟨next, hstep, hsound, ?_⟩
  simp only [byteLength_append] at hposition hsize
  rw [Progress.left, Progress.left, hposition, hopeners]
  omega

theorem Sound.turn (rule : CallRule) (h : Sound sql m) (hm : m.position < byteLength sql) :
    ∃ next, m.turn rule sql = some next ∧ Sound sql next ∧ next.left sql < m.left sql := by
  obtain ⟨⟨s, ht, hs⟩, ⟨front, ahead, rfl, hp⟩, hspans⟩ := h
  have hpending : Spans (front ++ ahead) 0 m.pending := hspans.dropWhile _
  by_cases hhead : m.pending.head?.any (fun span => span.1 = m.position) = true
  · -- An opener begins here, and there is one less ahead.
    have hfewer : m.pending.length ≤ m.openers.length := (List.dropWhile_suffix _).length_le
    cases hp' : m.pending with
    | nil => simp [hp'] at hhead
    | cons span later =>
      obtain ⟨start, stop⟩ := span
      obtain rfl : start = m.position := by simpa [hp'] using hhead
      rw [hp'] at hpending hfewer
      obtain ⟨-, hle, -, ⟨front', back, he, rfl⟩, hlater⟩ := hpending
      obtain ⟨o, rfl, rfl⟩ := exists_append_of_le he (hp.trans_le hle)
      rw [← hp] at hp'
      have hboundary : Boundary (front ++ (o ++ back)) (byteLength (front ++ o)) := by
        rw [← List.append_assoc]
        exact boundary_append _ back
      obtain ⟨next, hturn, hsound, hposition, hopeners⟩ :=
        (lands_turn_opener rule ht rfl hp.symm hp').sound hs hboundary (hlater.mono (Nat.zero_le _))
      refine ⟨next, hturn, hsound, ?_⟩
      rw [Progress.left, Progress.left, hposition, hopeners]
      simp only [List.length_cons] at hfewer
      omega
  · cases ahead with
    | nil =>
      rw [List.append_nil, hp] at hm
      exact absurd hm (lt_irrefl _)
    | cons c rest =>
      have ht' : Tracks { m with openers := m.pending } s := ⟨ht.out, ht.stack, ht.changed⟩
      rw [turn_eq_readByte (Bool.not_eq_true _ ▸ hhead)]
      by_cases hc : c = '\''
      · subst hc
        have hsplit : front ++ '\'' :: rest =
            front ++ ('\'' :: (Literal.split rest).1 ++ (Literal.split rest).2) := by
          rw [List.cons_append, Literal.split_append]
        exact (lands_readByte_quote rule ht' rfl hp.symm).sound_less hsplit hp.symm
          (List.cons_ne_nil _ _) hs hpending
      · exact (lands_readByte rule ht' rfl hp.symm hc hs).sound_less rfl hp.symm
          (List.cons_ne_nil _ _) (readChar_quoted hc hs) hpending

theorem sound_start {openers : List (ℕ × ℕ)} (h : Spans sql 0 openers) :
    Sound sql ⟨[], [], openers, 0, false⟩ :=
  ⟨⟨⟨[], [], false, false⟩, ⟨rfl, rfl, rfl⟩, rfl⟩, boundary_zero sql, h⟩

theorem Sound.runFrom (rule : CallRule) (h : Sound sql m) : ∃ last, m.runFrom rule sql = some last := by
  induction hn : m.left sql using Nat.strongRecOn generalizing m with
  | ind n ih =>
    subst hn
    rw [Progress.runFrom]
    split
    · next hm =>
      obtain ⟨next, hturn, hnext, hless⟩ := h.turn rule hm
      rw [hturn]
      dsimp only
      rw [if_pos hless]
      exact ih _ hless hnext rfl
    · exact ⟨m, rfl⟩

/-- The recorded positions from the top of the stack down. -/
def offsets (stack : List (Option (ℕ × ℕ))) : List ℕ :=
  stack.flatMap fun entry => entry.elim [] fun (callStart, argsStart) => [argsStart, callStart]

/-- The recorded positions are no further on than the output is long, each no further on than those
above it, and the output may be cut at all of them. -/
structure Ordered (m : Progress) : Prop where
  descending : (byteLength m.out :: offsets m.stack).Pairwise (· ≥ ·)
  boundary : ∀ n ∈ offsets m.stack, Boundary m.out n

private theorem offsets_positions (frames : List Frame) :
    (byteLength (opened frames) :: offsets (positions frames)).Pairwise (· ≥ ·) ∧
      ∀ n ∈ offsets (positions frames), Boundary (opened frames) n := by
  induction frames with
  | nil => simp [positions, offsets]
  | cons f frames ih =>
    obtain ⟨hdescending, hboundary⟩ := ih
    rw [opened_cons]
    cases ho : f.opener with
    | none =>
      have hoffsets : offsets (positions (f :: frames)) = offsets (positions frames) := by
        simp [positions, offsets, ho]
      rw [hoffsets]
      refine ⟨?_, fun n hn => (hboundary n hn).append _⟩
      obtain ⟨hfirst, hrest⟩ := List.pairwise_cons.1 hdescending
      refine List.pairwise_cons.2 ⟨fun n hn => (hfirst n hn).trans ?_, hrest⟩
      rw [byteLength_append]
      omega
    | some o =>
      have hoffsets : offsets (positions (f :: frames)) =
          byteLength (opened frames ++ (f.before.reverse ++ o)) ::
            byteLength (opened frames ++ f.before.reverse) :: offsets (positions frames) := by
        simp [positions, offsets, ho]
      rw [hoffsets, Option.getD_some]
      have hcall : byteLength (opened frames) ≤ byteLength (opened frames ++ f.before.reverse) := by
        rw [byteLength_append]
        omega
      have hargs : byteLength (opened frames ++ f.before.reverse) ≤
          byteLength (opened frames ++ (f.before.reverse ++ o)) := by
        rw [← List.append_assoc, byteLength_append _ o]
        omega
      obtain ⟨hfirst, hrest⟩ := List.pairwise_cons.1 hdescending
      constructor
      · simp only [List.pairwise_cons, List.mem_cons, forall_eq_or_imp]
        refine ⟨⟨le_rfl, hargs, fun n hn => ?_⟩, ⟨hargs, fun n hn => ?_⟩, fun n hn => ?_, hrest⟩
        · exact (hfirst n hn).trans (hcall.trans hargs)
        · exact (hfirst n hn).trans (hcall.trans hargs)
        · exact (hfirst n hn).trans hcall
      · simp only [List.mem_cons, forall_eq_or_imp]
        refine ⟨boundary_byteLength _, ?_, fun n hn => (hboundary n hn).append _⟩
        rw [← List.append_assoc]
        exact boundary_append _ o

theorem Tracks.ordered (h : Tracks m s) : Ordered m := by
  obtain ⟨hdescending, hboundary⟩ := offsets_positions s.frames
  have hout : m.out = opened s.frames ++ s.written.reverse := by rw [h.out, State.text_eq]
  obtain ⟨hfirst, hrest⟩ := List.pairwise_cons.1 hdescending
  refine ⟨?_, ?_⟩
  · rw [h.stack, hout]
    refine List.pairwise_cons.2 ⟨fun n hn => (hfirst n hn).trans ?_, hrest⟩
    rw [byteLength_append]
    omega
  · rw [h.stack, hout]
    exact fun n hn => (hboundary n hn).append _

/-- A number of turns leads from the start of a text to what is given. -/
def Reachable (rule : CallRule) (sql : List Char) (openers : List (ℕ × ℕ)) : Progress → Prop :=
  Relation.ReflTransGen
    (fun m next => m.position < byteLength sql ∧ m.turn rule sql = some next)
    ⟨[], [], openers, 0, false⟩

theorem Reachable.sound {openers : List (ℕ × ℕ)} (hspans : Spans sql 0 openers)
    (h : Reachable rule sql openers m) : Sound sql m := by
  induction h with
  | refl => exact sound_start hspans
  | tail _ hstep ih =>
    obtain ⟨next, hturn, hnext, -⟩ := ih.turn rule hstep.1
    rw [hstep.2] at hturn
    cases hturn
    exact hnext

theorem exists_applyAt {openers : List (ℕ × ℕ)} (hspans : Spans sql 0 openers) :
    ∃ outcome, applyAt rule openers sql = some outcome := by
  rw [applyAt]
  split
  · exact ⟨none, rfl⟩
  · obtain ⟨last, hlast⟩ := (sound_start hspans).runFrom rule
    rw [hlast]
    exact ⟨_, rfl⟩

end ReportMigration.Sql.Positions

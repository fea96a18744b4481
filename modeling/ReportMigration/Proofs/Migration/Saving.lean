import Mathlib.Data.List.Basic
import ReportMigration.Proofs.Migration.Phases

/-!
# What saving asks of a storage

A storage may answer its calls in any way, and differently each time. What is recorded is which
calls are made and in which order. For each document in turn, the calls that are made and the entry
it gets depend on nothing but the document and what the storage answers to those calls.
-/

namespace ReportMigration.Migration

open Report

/-- A call of a storage. -/
inductive Call where
  | read (path : OsText)
  | backup (path : OsText) (suffix : String)
  | write (path : OsText) (text : String)
deriving DecidableEq, Repr

/-- What a storage answers to a call behind the calls made before. -/
structure Answers where
  read : List Call → OsText → Except Failure String
  backup : List Call → OsText → String → Except Failure OsText
  write : List Call → OsText → String → Except Failure Unit

/-- The calls made so far, and the time. -/
structure Ledger where
  calls : List Call
  time : Timestamp

abbrev Recorded := StateM Ledger

instance : Journal Recorded where
  note _ _ := pure ()

instance : Clock Recorded where
  now := return (← get).time

namespace Ledger

def add (ledger : Ledger) (calls : List Call) : Ledger :=
  { ledger with calls := ledger.calls ++ calls }

@[simp] theorem add_calls (ledger : Ledger) (calls : List Call) :
    (ledger.add calls).calls = ledger.calls ++ calls := rfl

@[simp] theorem add_nil (ledger : Ledger) : ledger.add [] = ledger := by
  simp [add]

@[simp] theorem add_add (ledger : Ledger) (calls more : List Call) :
    (ledger.add calls).add more = ledger.add (calls ++ more) := by
  simp [add]

end Ledger

namespace Answers

/-- Records a call and gives the answer to it. -/
def ask {α : Type} (answer : List Call → Except Failure α) (call : Call) : ExceptT Failure Recorded α :=
  ExceptT.mk (modifyGet fun ledger => (answer ledger.calls, ledger.add [call]))

def storage (answers : Answers) : Storage Recorded where
  readReport path := ask (answers.read · path) (.read path)
  writeReport path text := ask (answers.write · path text) (.write path text)
  backupReport path suffix := ask (answers.backup · path suffix) (.backup path suffix)

end Answers

variable {settings : Settings} {answers : Answers} {history : List Call}

/-- The calls that are made for a document and its entry. -/
structure Settlement where
  calls : List Call
  entry : Entry
deriving DecidableEq, Repr

def backupCalls (settings : Settings) (path : OsText) : List Call :=
  if settings.output.backup then [.backup path settings.output.backupSuffix] else []

def backupAnswer (settings : Settings) (answers : Answers) (history : List Call) (path : OsText) :
    Except Failure (Option OsText) :=
  if settings.output.backup then
    some <$> answers.backup history path settings.output.backupSuffix
  else .ok none

/-- How a changed document is saved: it is written behind its backup, and only if that could be made.
It counts as changed if it could be written, and as failed otherwise. -/
inductive Saves (settings : Settings) (answers : Answers) (history : List Call) (path : OsText)
    (text : String) (fragments : List Change) : Settlement → Prop
  | notKept {failure : Failure} (h : backupAnswer settings answers history path = .error failure) :
      Saves settings answers history path text fragments ⟨backupCalls settings path,
        { path, status := .failed, fragmentsChanged := 0, backup := none,
          error := some failure.message, changes := fragments }⟩
  | notWritten {backup : Option OsText} {failure : Failure}
      (h : backupAnswer settings answers history path = .ok backup)
      (hw : answers.write (history ++ backupCalls settings path) path text = .error failure) :
      Saves settings answers history path text fragments
        ⟨backupCalls settings path ++ [.write path text],
          { path, status := .failed, fragmentsChanged := 0, backup,
            error := some failure.message, changes := fragments }⟩
  | written {backup : Option OsText} (h : backupAnswer settings answers history path = .ok backup)
      (hw : answers.write (history ++ backupCalls settings path) path text = .ok ()) :
      Saves settings answers history path text fragments
        ⟨backupCalls settings path ++ [.write path text],
          { path, status := .changed, fragmentsChanged := fragments.length, backup, error := none,
            changes := fragments }⟩

/-- What becomes of a document behind the calls made before. Only a changed document is saved, and
not in a dry run. -/
inductive Settles (settings : Settings) (answers : Answers) (history : List Call) (path : OsText) :
    Outcome → Option String → Settlement → Prop
  | unchanged {text : Option String} :
      Settles settings answers history path .unchanged text ⟨[], { path, status := .unchanged }⟩
  | failed {reason : String} {text : Option String} :
      Settles settings answers history path (.failed reason) text
        ⟨[], { path, status := .failed, error := some reason }⟩
  | previewed {fragments : List Change} {text : Option String} (h : settings.output.dryRun = true) :
      Settles settings answers history path (.changed fragments) text ⟨[],
        { path, status := .previewed, fragmentsChanged := fragments.length, changes := fragments }⟩
  | saved {fragments : List Change} {text : String} {settlement : Settlement}
      (h : settings.output.dryRun = false)
      (hs : Saves settings answers history path text fragments settlement) :
      Settles settings answers history path (.changed fragments) (some text) settlement

/-- A changed document comes with its new text. -/
def Converted.Complete (document : Converted) : Prop :=
  ∀ fragments, document.outcome = .changed fragments → ∃ text, document.text = some text

theorem convertSource_complete (settings : Settings) (source : Source) :
    (convertSource settings source).1.Complete := by
  have houtcome : ∀ result fragments, (outcomeOf source.path result).1 = .changed fragments →
      ∃ text, (outcomeOf source.path result).2 = some text := by
    intro result fragments h
    cases result with
    | error fault => cases h
    | ok document =>
      simp only [outcomeOf] at h ⊢
      by_cases he : document.changes.isEmpty = true
      · rw [if_pos he] at h
        cases h
      · exact ⟨_, by rw [if_neg he]⟩
  intro fragments h
  unfold convertSource at h ⊢
  cases hc : source.content with
  | error reason => simp [hc] at h
  | ok text =>
    simp only [hc] at h ⊢
    exact houtcome _ fragments h

theorem run_bind {α β : Type} (action : Recorded α) (next : α → Recorded β) (ledger : Ledger) :
    (action >>= next) ledger = next (action ledger).1 (action ledger).2 := rfl

theorem write_run (path : OsText) (text : String) (backup : Option OsText) (ledger : Ledger) :
    write answers.storage path text backup ledger =
      (⟨backup, match answers.write ledger.calls path text with
        | .ok () => none
        | .error failure => some failure⟩, ledger.add [.write path text]) := by
  have hask : (answers.storage.writeReport path text).run ledger =
      (answers.write ledger.calls path text, ledger.add [.write path text]) := rfl
  unfold write
  rw [run_bind, hask]
  cases answers.write ledger.calls path text <;> rfl

variable (settings answers) in
theorem save_run (path : OsText) (text : String) (fragments : List Change) (ledger : Ledger) :
    ∃ saving calls, save settings answers.storage path text ledger = (saving, ledger.add calls) ∧
      Saves settings answers ledger.calls path text fragments
        ⟨calls, savedEntry path fragments saving⟩ := by
  have hwrite : ∀ backup, backupAnswer settings answers ledger.calls path = .ok backup →
      ∃ saving, write answers.storage path text backup (ledger.add (backupCalls settings path)) =
          (saving, ledger.add (backupCalls settings path ++ [.write path text])) ∧
        Saves settings answers ledger.calls path text fragments
          ⟨backupCalls settings path ++ [.write path text], savedEntry path fragments saving⟩ := by
    intro backup h
    rw [write_run, Ledger.add_add, Ledger.add_calls]
    cases hw : answers.write (ledger.calls ++ backupCalls settings path) path text with
    | ok _ => exact ⟨_, rfl, .written h hw⟩
    | error failure => exact ⟨_, rfl, .notWritten h hw⟩
  unfold save
  by_cases hkept : settings.output.backup = true
  · have hcalls : backupCalls settings path = [.backup path settings.output.backupSuffix] :=
      if_pos hkept
    have hask : (answers.storage.backupReport path settings.output.backupSuffix).run ledger =
        (answers.backup ledger.calls path settings.output.backupSuffix,
          ledger.add (backupCalls settings path)) := by
      rw [hcalls]
      rfl
    rw [if_pos hkept, run_bind, hask]
    cases hb : answers.backup ledger.calls path settings.output.backupSuffix with
    | ok backup =>
      obtain ⟨saving, hrun, hsaves⟩ := hwrite (some backup) (by rw [backupAnswer, if_pos hkept, hb]; rfl)
      exact ⟨saving, _, hrun, hsaves⟩
    | error failure =>
      exact ⟨⟨none, some failure⟩, backupCalls settings path, rfl,
        .notKept (by rw [backupAnswer, if_pos hkept, hb]; rfl)⟩
  · have hcalls : backupCalls settings path = [] := if_neg hkept
    obtain ⟨saving, hrun, hsaves⟩ := hwrite none (if_neg hkept)
    rw [hcalls, Ledger.add_nil] at hrun
    rw [if_neg hkept]
    exact ⟨saving, _, by rw [hrun, hcalls], hsaves⟩

variable (settings answers) in
theorem settle_run (document : Converted) (complete : document.Complete) (ledger : Ledger) :
    ∃ settlement, settle settings answers.storage document ledger =
        (settlement.entry, ledger.add settlement.calls) ∧
      Settles settings answers ledger.calls document.path document.outcome document.text settlement := by
  obtain ⟨path, outcome, text⟩ := document
  cases outcome with
  | unchanged => exact ⟨_, by rw [Ledger.add_nil]; rfl, .unchanged⟩
  | failed reason => exact ⟨_, by rw [Ledger.add_nil]; rfl, .failed⟩
  | changed fragments =>
    obtain ⟨new, rfl⟩ : ∃ new, text = some new := complete fragments rfl
    cases hdry : settings.output.dryRun with
    | true =>
      refine ⟨⟨[], previewedEntry path fragments⟩, ?_, .previewed hdry⟩
      rw [Ledger.add_nil, settle, textToWrite, if_pos hdry]
      rfl
    | false =>
      obtain ⟨saving, calls, hrun, hsaves⟩ := save_run settings answers path new
        fragments ledger
      refine ⟨⟨calls, savedEntry path fragments saving⟩, ?_, .saved hdry hsaves⟩
      have hnote : ∀ saving, noteSaving path saving = (pure () : Recorded Unit) := by
        intro saving
        unfold noteSaving
        split <;> rfl
      rw [settle, textToWrite, if_neg (by simp [hdry])]
      change settleChanged settings answers.storage path fragments (some new) ledger = _
      rw [settleChanged, run_bind, hrun, run_bind, hnote]
      rfl

/-- What becomes of documents one after the other. -/
inductive SettlesEach (settings : Settings) (answers : Answers) :
    List Call → List Converted → List Settlement → Prop
  | nil {history : List Call} : SettlesEach settings answers history [] []
  | cons {history : List Call} {document : Converted} {settlement : Settlement}
      {documents : List Converted} {settlements : List Settlement}
      (h : Settles settings answers history document.path document.outcome document.text settlement)
      (rest : SettlesEach settings answers (history ++ settlement.calls) documents settlements) :
      SettlesEach settings answers history (document :: documents) (settlement :: settlements)

variable (settings answers) in
theorem mapM_settle_run (documents : List Converted) (complete : ∀ d ∈ documents, d.Complete)
    (ledger : Ledger) : ∃ settlements,
      documents.mapM (settle settings answers.storage) ledger =
        (settlements.map (·.entry), ledger.add (settlements.flatMap (·.calls))) ∧
      SettlesEach settings answers ledger.calls documents settlements := by
  induction documents generalizing ledger with
  | nil => exact ⟨[], by rw [List.flatMap_nil, Ledger.add_nil]; rfl, .nil⟩
  | cons document documents ih =>
    obtain ⟨hfirst, hrest⟩ := List.forall_mem_cons.1 complete
    obtain ⟨settlement, hrun, hs⟩ := settle_run settings answers document hfirst ledger
    obtain ⟨settlements, hruns, hss⟩ := ih hrest (ledger.add settlement.calls)
    refine ⟨settlement :: settlements, ?_, .cons hs hss⟩
    rw [List.mapM_cons, run_bind, hrun, run_bind, hruns, Ledger.add_add]
    rfl

theorem SettlesEach.getElem? {documents : List Converted} {settlements : List Settlement}
    (h : SettlesEach settings answers history documents settlements) (i : Nat) :
    (documents[i]? = none ∧ settlements[i]? = none) ∨
      ∃ document settlement before, documents[i]? = some document ∧
        settlements[i]? = some settlement ∧ Settles settings answers before document.path
          document.outcome document.text settlement := by
  induction h generalizing i with
  | nil => exact .inl ⟨rfl, rfl⟩
  | cons hs _ ih =>
    cases i with
    | zero => exact .inr ⟨_, _, _, rfl, rfl, hs⟩
    | succ i => exact ih i

theorem Settles.calls_dryRun {path : OsText} {outcome : Outcome} {text : Option String}
    {settlement : Settlement} (h : Settles settings answers history path outcome text settlement)
    (dry : settings.output.dryRun = true) : settlement.calls = [] := by
  cases h with
  | unchanged => rfl
  | failed => rfl
  | previewed => rfl
  | saved wet => rw [dry] at wet; cases wet

theorem SettlesEach.calls_dryRun {documents : List Converted} {settlements : List Settlement}
    (h : SettlesEach settings answers history documents settlements)
    (dry : settings.output.dryRun = true) : settlements.flatMap (·.calls) = [] := by
  induction h with
  | nil => rfl
  | cons hs _ ih => rw [List.flatMap_cons, hs.calls_dryRun dry, ih, List.nil_append]

/-- Two storages answer alike to calls for a path, whatever calls were made before. -/
def Answers.AgreeOn (answers answers' : Answers) (path : OsText) : Prop :=
  ∀ before before', (∀ suffix, answers.backup before path suffix = answers'.backup before' path suffix) ∧
    ∀ text, answers.write before path text = answers'.write before' path text

theorem Saves.unique {answers' : Answers} {history' : List Call} {path : OsText} {text : String}
    {fragments : List Change} {settlement settlement' : Settlement}
    (agree : answers.AgreeOn answers' path)
    (h : Saves settings answers history path text fragments settlement)
    (h' : Saves settings answers' history' path text fragments settlement') :
    settlement = settlement' := by
  have hbackup : backupAnswer settings answers history path =
      backupAnswer settings answers' history' path := by
    rw [backupAnswer, backupAnswer, (agree history history').1]
  have hwrite : answers.write (history ++ backupCalls settings path) path text =
      answers'.write (history' ++ backupCalls settings path) path text := (agree _ _).2 text
  cases h <;> cases h' <;> simp_all

theorem Settles.unique {answers' : Answers} {history' : List Call} {path : OsText}
    {outcome : Outcome} {text : Option String} {settlement settlement' : Settlement}
    (agree : answers.AgreeOn answers' path)
    (h : Settles settings answers history path outcome text settlement)
    (h' : Settles settings answers' history' path outcome text settlement') :
    settlement = settlement' := by
  cases h with
  | unchanged => cases h'; rfl
  | failed => cases h'; rfl
  | previewed dry =>
    cases h' with
    | previewed => rfl
    | saved wet => rw [dry] at wet; cases wet
  | saved wet hs =>
    cases h' with
    | previewed dry => rw [dry] at wet; cases wet
    | saved _ hs' => exact hs.unique agree hs'

def convertedDocuments (settings : Settings) (sources : List Source) : List Converted :=
  sources.map fun source => (convertSource settings source).1

theorem convertDocument_run (source : Source) (ledger : Ledger) :
    (convertDocument settings source : Recorded Converted) ledger =
      ((convertSource settings source).1, ledger) := by
  have hnotes : ∀ skipped : List Markup.Skipped, (skipped.forM fun field =>
      Journal.note .warn (field.message source.path) : Recorded PUnit) = pure () := by
    intro skipped
    induction skipped with
    | nil => rfl
    | cons field skipped ih => exact ih
  unfold convertDocument
  cases convertSource settings source with
  | mk document skipped =>
    dsimp only
    rw [run_bind, hnotes, run_bind]
    cases document.outcome <;> rfl

theorem mapM_convert_run (sources : List Source) (ledger : Ledger) :
    (sources.mapM (convertDocument settings) : Recorded (List Converted)) ledger =
      (convertedDocuments settings sources, ledger) := by
  induction sources with
  | nil => rfl
  | cons source sources ih =>
    rw [List.mapM_cons, run_bind, convertDocument_run, run_bind, ih]
    rfl

/-- Converting and saving documents on a storage that answers in any way makes, for each of them in
turn, the calls and the entry that it should, and nothing else. None are made in a dry run. Where
one document and the answers for it are others, the calls and entries of all others are the same. -/
theorem saveAll_converted (settings : Settings) (answers : Answers) (startedAt : Timestamp)
    (sources : List Source) (ledger : Ledger) : ∃ settlements : List Settlement,
      (convertAll settings sources >>= saveAll settings answers.storage startedAt :
          ExceptT Failure Recorded Summary).run ledger =
        (.ok (Summary.ofEntries startedAt ledger.time settings.output.dryRun
            (settlements.map (·.entry))), ledger.add (settlements.flatMap (·.calls))) ∧
      SettlesEach settings answers ledger.calls (convertedDocuments settings sources) settlements ∧
      (settings.output.dryRun = true → settlements.flatMap (·.calls) = []) ∧
      ∀ (answers' : Answers) (history' : List Call) (sources' : List Source) (k : Nat)
        (settlements' : List Settlement),
        SettlesEach settings answers' history' (convertedDocuments settings sources') settlements' →
        (∀ i ≠ k, sources'[i]? = sources[i]? ∧
          ∀ source, sources[i]? = some source → answers.AgreeOn answers' source.path) →
        ∀ i ≠ k, settlements'[i]? = settlements[i]? := by
  have complete : ∀ d ∈ convertedDocuments settings sources, d.Complete := by
    intro d hd
    obtain ⟨source, -, rfl⟩ := List.mem_map.1 hd
    exact convertSource_complete settings source
  obtain ⟨settlements, hrun, hs⟩ := mapM_settle_run settings answers _ complete ledger
  refine ⟨settlements, ?_, hs, hs.calls_dryRun, ?_⟩
  · have hsave : (do
        let entries ← (convertedDocuments settings sources).mapM (settle settings answers.storage)
        return Summary.ofEntries startedAt (← Clock.now) settings.output.dryRun entries :
          Recorded Summary) ledger = (Summary.ofEntries startedAt ledger.time settings.output.dryRun
            (settlements.map (·.entry)), ledger.add (settlements.flatMap (·.calls))) := by
      rw [run_bind, hrun]
      rfl
    rw [convertAll, ExceptT.run_bind_lift, run_bind, mapM_convert_run, saveAll, ExceptT.run_lift]
    exact congrArg (fun r : Summary × Ledger => (Except.ok r.1, r.2)) hsave
  · intro answers' history' sources' k settlements' hs' agree i hi
    obtain ⟨hsource, hagree⟩ := agree i hi
    have hdocument : (convertedDocuments settings sources')[i]? =
        (convertedDocuments settings sources)[i]? := by
      rw [convertedDocuments, convertedDocuments, List.getElem?_map, List.getElem?_map, hsource]
    rcases hs.getElem? i with ⟨hd, hn⟩ | ⟨d, s, before, hd, hn, hsettles⟩ <;>
      rcases hs'.getElem? i with ⟨hd', hn'⟩ | ⟨d', s', before', hd', hn', hsettles'⟩
    · rw [hn, hn']
    · rw [hdocument, hd] at hd'
      cases hd'
    · rw [hdocument, hd] at hd'
      cases hd'
    · obtain rfl : d = d' := by
        rw [hdocument, hd] at hd'
        exact Option.some.inj hd'
      obtain ⟨source, hi', rfl⟩ : ∃ source, sources[i]? = some source ∧
          (convertSource settings source).1 = d := by
        rw [convertedDocuments, List.getElem?_map] at hd
        exact Option.map_eq_some_iff.1 hd
      have hpath := hagree source hi'
      rw [← convertSource_path settings source] at hpath
      rw [hn, hn', hsettles.unique hpath hsettles']

end ReportMigration.Migration

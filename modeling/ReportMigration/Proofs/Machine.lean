import ReportMigration.Machine
import Mathlib.Data.List.Forall2

/-!
# What actions do to the disk of a machine

An action ensures something when it ends, on every machine on whose disk something holds. What two
actions ensure one after the other follows from what each of them ensures, and so does what a list
of actions ensures. An action that asks for nothing but the disk computes a function of the disk.
-/

namespace ReportMigration

open Storage

variable {α β ε : Type} {P P' failed : Disk → Prop} {Q : α → Disk → Prop}

/-- On every disk with the first property the action ends with a result and a disk as required. -/
def Ensures (P : Disk → Prop) (action : OnMachine α) (Q : α → Disk → Prop) : Prop :=
  ∀ machine : Machine, P machine.disk → Q (action machine).1 (action machine).2.disk

/-- What an action ensures that may fail: something about its result, or something else when it
fails. -/
def Attempts (P : Disk → Prop) (action : ExceptT ε OnMachine α) (Q : α → Disk → Prop)
    (failed : Disk → Prop) : Prop :=
  Ensures P action.run fun result disk =>
    (∀ a, result = .ok a → Q a disk) ∧ (∀ fault, result = .error fault → failed disk)

namespace Ensures

theorem pure {a : α} (h : ∀ disk, P disk → Q a disk) : Ensures P (Pure.pure a) Q :=
  fun machine held => h machine.disk held

theorem bind {action : OnMachine α} {next : α → OnMachine β} {final : β → Disk → Prop}
    (first : Ensures P action Q) (second : ∀ a, Ensures (Q a) (next a) final) :
    Ensures P (action >>= next) final :=
  fun machine held => second _ (action machine).2 (first machine held)

theorem mono {action : OnMachine α} {Q' : α → Disk → Prop} (h : Ensures P' action Q')
    (before : ∀ disk, P disk → P' disk) (after : ∀ a disk, Q' a disk → Q a disk) :
    Ensures P action Q :=
  fun machine held => after _ _ (h machine (before _ held))

theorem assume {fact : Prop} {action : OnMachine α} (known : ∀ disk, P disk → fact)
    (h : fact → Ensures P action Q) : Ensures P action Q :=
  fun machine held => h (known _ held) machine held

theorem mapM {R : α → β → Prop} {each : α → OnMachine β} {items : List α}
    (h : ∀ item ∈ items, Ensures P (each item) fun result disk => P disk ∧ R item result) :
    Ensures P (items.mapM each) fun results disk => P disk ∧ List.Forall₂ R items results := by
  induction items with
  | nil => exact pure fun disk held => ⟨held, .nil⟩
  | cons item rest ih =>
    rw [List.mapM_cons]
    refine bind (h item List.mem_cons_self) fun first => ?_
    intro machine held
    have others := ih (fun other member => h other (List.mem_cons_of_mem _ member)) machine held.1
    exact ⟨others.1, .cons held.2 others.2⟩

theorem mapM_eq {f : α → β} {each : α → OnMachine β} {items : List α}
    (h : ∀ item ∈ items, Ensures P (each item) fun result disk => P disk ∧ result = f item) :
    Ensures P (items.mapM each) fun results disk => P disk ∧ results = items.map f := by
  refine (mapM h).mono (fun _ held => held) fun results disk ⟨held, each⟩ => ⟨held, ?_⟩
  have same : List.Forall₂ (· = ·) results (items.map f) :=
    List.forall₂_map_right_iff.2 each.flip
  rwa [List.forall₂_eq_eq_eq] at same

theorem forM {each : α → OnMachine PUnit} {items : List α}
    (h : ∀ item ∈ items, Ensures P (each item) fun _ disk => P disk) :
    Ensures P (items.forM each) fun _ disk => P disk := by
  induction items with
  | nil => exact pure fun _ held => held
  | cons item rest ih =>
    change Ensures P (each item >>= fun _ => rest.forM each) _
    exact bind (h item List.mem_cons_self) fun _ =>
      ih fun other member => h other (List.mem_cons_of_mem _ member)

theorem note (level : Level) (message : String) :
    Ensures P (Journal.note level message : OnMachine Unit) fun _ disk => P disk := by
  intro machine held
  change P (Machine.note level message machine).disk
  unfold Machine.note
  split
  · split <;> exact held
  · exact held

theorem now : Ensures P (Clock.now : OnMachine Report.Timestamp) fun _ disk => P disk :=
  fun _ held => held

theorem print (line : String) :
    Ensures P (Program.Terminal.print line : OnMachine Unit) fun _ disk => P disk :=
  fun _ held => held

theorem complain (line : String) :
    Ensures P (Program.Terminal.complain line : OnMachine Unit) fun _ disk => P disk :=
  fun _ held => held

theorem openLog (style : LogStyle) :
    Ensures P (Program.Terminal.openLog style : OnMachine Unit) fun _ disk => P disk :=
  fun _ held => held

theorem usage? (monitor : Monitor) :
    Ensures P (monitor.usage? : OnMachine (Option Usage)) fun _ disk => P disk := by
  unfold Monitor.usage?
  split
  · exact fun _ held => held
  · exact pure fun _ held => held

theorem notePhase (monitor : Monitor) (phase : String) :
    Ensures P (monitor.notePhase phase : OnMachine Unit) fun _ disk => P disk := by
  refine bind (usage? monitor) fun usage => ?_
  cases usage with
  | some usage => exact note _ _
  | none => exact pure fun _ held => held

theorem noteEnd (monitor : Monitor) :
    Ensures P (monitor.noteEnd : OnMachine Unit) fun _ disk => P disk := by
  refine bind (usage? monitor) fun usage => ?_
  cases usage with
  | some usage => exact note _ _
  | none => exact pure fun _ held => held

theorem isDirectory (path : OsText) :
    Ensures P (FileSystem.isDirectory path : OnMachine Bool) fun answer disk =>
      P disk ∧ answer = disk.isDirectory path :=
  fun _ held => ⟨held, rfl⟩

theorem walk (path : OsText) :
    Ensures P (FileSystem.walk path : OnMachine (List Found)) fun found disk =>
      P disk ∧ found = disk.walk path :=
  fun _ held => ⟨held, rfl⟩

end Ensures

namespace Attempts

theorem pure {a : α} (h : ∀ disk, P disk → Q a disk) :
    Attempts P (Pure.pure a : ExceptT ε OnMachine α) Q failed :=
  fun machine held => ⟨fun _ same => Except.ok.inj same ▸ h machine.disk held, nofun⟩

theorem throw {fault : ε} (h : ∀ disk, P disk → failed disk) :
    Attempts P (throw fault : ExceptT ε OnMachine α) Q failed :=
  fun machine held => ⟨nofun, fun _ _ => h machine.disk held⟩

theorem bind {action : ExceptT ε OnMachine α} {next : α → ExceptT ε OnMachine β}
    {final : β → Disk → Prop} (first : Attempts P action Q failed)
    (second : ∀ a, Attempts (Q a) (next a) final failed) :
    Attempts P (action >>= next) final failed := by
  unfold Attempts
  rw [ExceptT.run_bind]
  refine Ensures.bind first fun result => ?_
  cases result with
  | ok a => exact (second a).mono (fun _ h => h.1 a rfl) fun _ _ h => h
  | error fault => exact throw fun _ h => h.2 fault rfl

theorem mono {action : ExceptT ε OnMachine α} {Q' : α → Disk → Prop} {failed' : Disk → Prop}
    (h : Attempts P' action Q' failed') (before : ∀ disk, P disk → P' disk)
    (after : ∀ a disk, Q' a disk → Q a disk) (fault : ∀ disk, failed' disk → failed disk) :
    Attempts P action Q failed :=
  Ensures.mono h before fun _ disk hpost =>
    ⟨fun a same => after a disk (hpost.1 a same), fun e same => fault disk (hpost.2 e same)⟩

theorem lift {action : OnMachine α} (h : Ensures P action Q) :
    Attempts P (ExceptT.lift action : ExceptT ε OnMachine α) Q failed := by
  intro machine held
  exact ⟨fun _ same => Except.ok.inj same ▸ h machine held, nofun⟩

theorem adapt {ε' : Type} {action : ExceptT ε OnMachine α} (f : ε → ε')
    (h : Attempts P action Q failed) : Attempts P (ExceptT.adapt f action) Q failed := by
  intro machine held
  obtain ⟨succeeds, fails⟩ := h machine held
  change (∀ a, (action machine).1.mapError f = .ok a → Q a (action machine).2.disk) ∧
    ∀ fault, (action machine).1.mapError f = .error fault → failed (action machine).2.disk
  change ∀ a, (action machine).1 = .ok a → _ at succeeds
  change ∀ fault, (action machine).1 = .error fault → _ at fails
  cases ends : (action machine).1 with
  | ok a => exact ⟨fun _ same => Except.ok.inj same ▸ succeeds a ends, nofun⟩
  | error fault => exact ⟨nofun, fun _ _ => fails fault ends⟩

theorem tryChange {operation : Disk → Except IoFault Disk} :
    Attempts P (Machine.tryChange operation)
      (fun _ disk => ∃ before, P before ∧ operation before = .ok disk) P := by
  intro machine held
  unfold Machine.tryChange
  dsimp only [ExceptT.run_mk, modifyGet, MonadStateOf.modifyGet, StateT.modifyGet, Id]
  cases ends : operation machine.disk with
  | ok disk => exact ⟨fun _ _ => ⟨machine.disk, held, ends⟩, nofun⟩
  | error fault => exact ⟨nofun, fun _ _ => held⟩

end Attempts

/-- The result of the action and the disk after it are what the function makes of the disk before. -/
def Computes (action : OnMachine α) (f : Disk → α × Disk) : Prop :=
  ∀ machine : Machine, ((action machine).1, (action machine).2.disk) = f machine.disk

namespace Computes

variable {f : Disk → α × Disk}

theorem pure (a : α) : Computes (Pure.pure a) fun disk => (a, disk) :=
  fun _ => rfl

theorem bind {action : OnMachine α} {next : α → OnMachine β} {g : α → Disk → β × Disk}
    (first : Computes action f) (second : ∀ a, Computes (next a) (g a)) :
    Computes (action >>= next) fun disk => g (f disk).1 (f disk).2 := by
  intro machine
  dsimp only
  rw [← first machine]
  exact second _ (action machine).2

theorem congr {action : OnMachine α} {g : Disk → α × Disk} (h : Computes action f)
    (same : ∀ disk, f disk = g disk) : Computes action g :=
  fun machine => (h machine).trans (same machine.disk)

theorem note (level : Level) (message : String) :
    Computes (Journal.note level message : OnMachine Unit) fun disk => ((), disk) := by
  intro machine
  change ((), (Machine.note level message machine).disk) = ((), machine.disk)
  unfold Machine.note
  split
  · split <;> rfl
  · rfl

theorem either {action : OnMachine (Except ε α)} {next : Except ε α → OnMachine β}
    {f : Disk → Except ε α × Disk} {g : α → Disk → β × Disk} {whenFailed : ε → Disk → β × Disk}
    (first : Computes action f) (second : ∀ a, Computes (next (.ok a)) (g a))
    (failed : ∀ fault, Computes (next (.error fault)) (whenFailed fault)) :
    Computes (action >>= next) fun disk => match f disk with
      | (.ok a, disk) => g a disk
      | (.error fault, disk) => whenFailed fault disk := by
  intro machine
  have follows : (action >>= next) machine = next (action machine).1 (action machine).2 := rfl
  dsimp only
  rw [follows, ← first machine]
  cases (action machine).1 with
  | ok a => exact second a (action machine).2
  | error fault => exact failed fault (action machine).2

theorem andThen {action : ExceptT ε OnMachine α} {next : α → ExceptT ε OnMachine β}
    {f : Disk → Except ε α × Disk} {g : α → Disk → Except ε β × Disk}
    (first : Computes action.run f) (second : ∀ a, Computes (next a).run (g a)) :
    Computes (action >>= next).run fun disk => match f disk with
      | (.ok a, disk) => g a disk
      | (.error fault, disk) => (.error fault, disk) := by
  rw [ExceptT.run_bind]
  exact first.either second fun fault _ => rfl

theorem lift {action : OnMachine α} (h : Computes action f) :
    Computes (ExceptT.lift action : ExceptT ε OnMachine α).run
      fun disk => (.ok (f disk).1, (f disk).2) := by
  intro machine
  dsimp only
  rw [← h machine]
  rfl

theorem asFailure {action : ExceptT IoFault OnMachine α} {f : Disk → Except IoFault α × Disk}
    (h : Computes action.run f) :
    Computes (Storage.asFailure action).run
      fun disk => ((f disk).1.mapError Failure.io, (f disk).2) := by
  intro machine
  dsimp only
  rw [← h machine]
  rfl

theorem tryAsk (question : Disk → Except IoFault α) :
    Computes (Machine.tryAsk question).run fun disk => (question disk, disk) :=
  fun _ => rfl

theorem tryChange (operation : Disk → Except IoFault Disk) :
    Computes (Machine.tryChange operation).run fun disk => match operation disk with
      | .ok after => (.ok (), after)
      | .error fault => (.error fault, disk) := by
  intro machine
  unfold Machine.tryChange
  dsimp only [ExceptT.run_mk, modifyGet, MonadStateOf.modifyGet, StateT.modifyGet, Id]
  cases operation machine.disk <;> rfl

end Computes

end ReportMigration

import ReportMigration.Settings.Validation
import Mathlib.Tactic.SplitIfs

/-!
# What valid settings keep to

The conditions that settings meet when they pass their checks.
-/

namespace ReportMigration.Settings

theorem andThen_eq_ok {check : Except Failure Unit} {next : Unit → Except Failure Unit} :
    (check >>= next) = .ok () ↔ check = .ok () ∧ next () = .ok () := by
  cases check <;> simp [bind, Except.bind]

theorem refuse_eq_ok {p : Prop} [Decidable p] {fault : Failure} :
    (if p then Except.error fault else .ok ()) = .ok () ↔ ¬ p := by
  split_ifs with h
  · simp [h]
  · simp [h]

theorem refuse_andThen_eq_ok {p : Prop} [Decidable p] {fault : Failure}
    {next : Unit → Except Failure Unit} :
    (if p then Except.error fault >>= next else next ()) = .ok () ↔ ¬ p ∧ next () = .ok () := by
  split_ifs with h
  · simp [h, bind, Except.bind]
  · simp [h]

theorem validateBackupSuffix_eq_ok {field suffix : String} :
    validateBackupSuffix field suffix = .ok () ↔
      (Text.trim suffix.toList).isEmpty = false ∧ suffix.toList.head? = some '.' ∧
        2 ≤ suffix.toList.length ∧ '/' ∉ suffix.toList ∧ '\\' ∉ suffix.toList := by
  have hstart : ¬ (suffix.toList.head? ≠ some '.' || suffix.toList.length < 2) = true ↔
      suffix.toList.head? = some '.' ∧ 2 ≤ suffix.toList.length := by
    simp only [Bool.or_eq_true, decide_eq_true_eq, not_or, Decidable.not_not, ne_eq, Nat.not_lt]
  have hseparators : ¬ (suffix.toList.contains '/' || suffix.toList.contains '\\') = true ↔
      '/' ∉ suffix.toList ∧ '\\' ∉ suffix.toList := by
    simp only [Bool.or_eq_true, List.contains_iff_mem, not_or]
  rw [validateBackupSuffix, andThen_eq_ok, validateNonEmpty, refuse_eq_ok, Bool.not_eq_true]
  refine and_congr_right' (refuse_andThen_eq_ok.trans ?_)
  rw [hstart, and_assoc]
  exact and_congr_right' (and_congr_right' (refuse_eq_ok.trans hseparators))

theorem validate_eq_ok {s : Settings} :
    s.validate = .ok () ↔
      validatePath "migration.root" s.source.root.display = .ok () ∧
        validateExtensions "migration.extensions" s.source.extensions = .ok () ∧
        s.source.fields ≠ [] ∧
        (s.output.backup = true →
          validateBackupSuffix "output.backup_suffix" s.output.backupSuffix = .ok ()) ∧
        (∀ path ∈ s.output.reportPath, validatePath "output.report_path" path.display = .ok ()) ∧
        validateLogFormat "monitoring.log_format" s.logFormat = .ok () := by
  have fields : s.source.fields.isEmpty = true ↔ s.source.fields = [] := List.isEmpty_iff
  simp only [validate, andThen_eq_ok]
  cases s.output.reportPath <;> split_ifs <;> simp_all [andThen_eq_ok]

end ReportMigration.Settings

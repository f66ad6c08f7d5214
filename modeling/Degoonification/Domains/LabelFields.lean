import Degoonification.Domains.Labels
import Degoonification.Library.Fields

/-! `split_domain_labels` against its specification: the non-empty fields of the trimmed
domain, in order and in lower case. So neither letter case, nor leading blanks, nor
dots and blanks at the end change the labels. -/

namespace Degoonification

open Fields

/-- Without its trailing dots and blanks, then without its leading blanks. -/
theorem trimDomain_eq_trim (s : Bytes) :
    trimDomain s = trim (fun c => c == dot || isspace c) isspace s := rfl

/-- What the labels are: the non-empty fields of the trimmed domain, in lower case. -/
def labelSpec (s : Bytes) : List Bytes :=
  (fields dot (trim (fun c => c == dot || isspace c) isspace s)).map lower

theorem emit_eq_fields {field : Bytes} (h : dot ∉ field) :
    emit field = (fields dot field).map lower := by
  rw [emit, fields_of_notMem h]
  split_ifs <;> rfl

/-- The pending field and what follows it are cut into the fields of both together. -/
theorem splitScan_eq_fields {field : Bytes} (h : dot ∉ field) (rest : Bytes) :
    splitScan field rest = (fields dot (field ++ rest)).map lower := by
  induction rest generalizing field with
  | nil => rw [splitScan, emit_eq_fields h, List.append_nil]
  | cons c rest ih =>
    rw [splitScan]
    split_ifs with hc
    · rw [emit_eq_fields h, ih List.not_mem_nil, List.nil_append, hc, fields_append_cons,
        List.map_append]
    · have hfield : dot ∉ field ++ [c] := by simp [h, Ne.symm hc]
      rw [ih hfield, List.append_assoc, List.singleton_append]

theorem splitDomainLabels_eq_labelSpec (s : Bytes) : splitDomainLabels s = labelSpec s := by
  rw [splitDomainLabels_eq_scan, splitScan_eq_fields List.not_mem_nil, List.nil_append,
    trimDomain_eq_trim, labelSpec]

/-! ### What does not change the labels -/

theorem labelSpec_lower (s : Bytes) : labelSpec (lower s) = labelSpec s := by
  have hend : ∀ c, (tolower c == dot || isspace (tolower c)) = (c == dot || isspace c) := by
    intro c
    rw [isspace_tolower, Bool.eq_iff_iff, Bool.or_eq_true, Bool.or_eq_true, beq_iff_eq, beq_iff_eq,
      tolower_eq_dot]
  rw [labelSpec, lower, trim_map hend isspace_tolower, fields_map fun c => tolower_eq_dot,
    List.map_map, labelSpec]
  exact List.map_congr_left fun l _ => lower_lower l

theorem labelSpec_append {s t : Bytes} (h : ∀ c ∈ t, c = dot ∨ isspace c) :
    labelSpec (s ++ t) = labelSpec s := by
  rw [labelSpec, trim_append, labelSpec]
  simpa using h

theorem labelSpec_append_left {s t : Bytes} (h : ∀ c ∈ s, isspace c) :
    labelSpec (s ++ t) = labelSpec t := by
  rw [labelSpec, trim_append_left (fun c hc => by rw [h c hc, Bool.or_true]) h, labelSpec]

theorem splitDomainLabels_append (s : Bytes) {t : Bytes} (h : ∀ c ∈ t, c = dot ∨ isspace c) :
    splitDomainLabels (s ++ t) = splitDomainLabels s := by
  rw [splitDomainLabels_eq_labelSpec, splitDomainLabels_eq_labelSpec, labelSpec_append h]

/-- The labels of a domain are the non-empty fields of the trimmed domain in lower case,
whatever its letter case, the blanks before it and the dots and blanks behind it. -/
theorem splitDomainLabels_spec (s : Bytes) :
    splitDomainLabels s = labelSpec s ∧
      (∀ s', lower s' = lower s → splitDomainLabels s' = splitDomainLabels s) ∧
      (∀ blanks, (∀ c ∈ blanks, isspace c) →
        splitDomainLabels (blanks ++ s) = splitDomainLabels s) ∧
      ∀ tail, (∀ c ∈ tail, c = dot ∨ isspace c) →
        splitDomainLabels (s ++ tail) = splitDomainLabels s := by
  refine ⟨splitDomainLabels_eq_labelSpec s, fun s' hcase => ?_, fun blanks hblanks => ?_,
    fun tail htail => splitDomainLabels_append s htail⟩
  · rw [splitDomainLabels_eq_labelSpec, splitDomainLabels_eq_labelSpec, ← labelSpec_lower s',
      hcase, labelSpec_lower]
  · rw [splitDomainLabels_eq_labelSpec, splitDomainLabels_eq_labelSpec,
      labelSpec_append_left hblanks]

example : splitDomainLabels [9, 87, 119, 46, 46, 65, 32, 46] = [[119, 119], [97]] := by
  decide +kernel

end Degoonification

import Mathlib.Data.List.Basic
import Mathlib.Data.List.Nodup

/-!
# Lists in which nothing comes twice

Names and candidates are collected in the order in which they show, each of them once: `insertLast` leaves a list as it is
if it has the element already. The list of what has shown is then the list of everything that came, without repetitions
(`eraseDups_concat`).
-/

namespace PredictiveParser

variable {α : Type}

theorem nodup_eraseDups [BEq α] [LawfulBEq α] (as : List α) : as.eraseDups.Nodup := by
  generalize hn : as.length = n
  induction n using Nat.strongRecOn generalizing as with
  | ind n ih =>
    cases as with
    | nil => exact List.nodup_nil
    | cons a as =>
      rw [List.eraseDups_cons, List.nodup_cons]
      refine ⟨fun hmem => ?_, ih _ ?_ _ rfl⟩
      · simp [List.mem_eraseDups] at hmem
      · rw [← hn]
        exact Nat.lt_succ_of_le (List.length_filter_le _ _)

variable [DecidableEq α]

/-- The list with one more element, which comes last if it is new. -/
def insertLast (as : List α) (a : α) : List α :=
  if a ∈ as then as else as ++ [a]

theorem insertLast_of_mem {as : List α} {a : α} (h : a ∈ as) : insertLast as a = as :=
  if_pos h

theorem insertLast_of_not_mem {as : List α} {a : α} (h : a ∉ as) : insertLast as a = as ++ [a] :=
  if_neg h

theorem mem_insertLast (as : List α) (a : α) : a ∈ insertLast as a := by
  by_cases h : a ∈ as
  · rwa [insertLast_of_mem h]
  · rw [insertLast_of_not_mem h]
    exact List.mem_append_right _ List.mem_cons_self

theorem prefix_insertLast (as : List α) (a : α) : as <+: insertLast as a := by
  unfold insertLast
  split
  · exact List.prefix_rfl
  · exact List.prefix_append _ _

theorem idxOf_insertLast (as : List α) (a : α) : (insertLast as a).idxOf a = as.idxOf a := by
  by_cases h : a ∈ as
  · rw [insertLast_of_mem h]
  · rw [insertLast_of_not_mem h, List.idxOf_eq_length h]
    exact (List.idxOf_append_of_notMem h).trans (congrArg (as.length + ·) List.idxOf_cons_self)

/-- **What has shown, without repetitions, is collected one by one.** -/
theorem eraseDups_concat (as : List α) (a : α) : (as ++ [a]).eraseDups = insertLast as.eraseDups a := by
  rw [List.eraseDups_append]
  by_cases h : a ∈ as
  · rw [insertLast_of_mem (List.mem_eraseDups.2 h)]
    simp [List.removeAll, h]
  · rw [insertLast_of_not_mem (mt List.mem_eraseDups.1 h)]
    simp [List.removeAll, h, List.eraseDups_cons]

end PredictiveParser

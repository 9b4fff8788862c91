import Mathlib.Data.List.Nodup

/-!
# Sources that post once

A log of entries `(i, b)`: source `i` has posted `b`. `Posted done log` says that the log has one
entry for each source that is done, with what it posted, and no others. A step that makes nobody
done leaves the log alone (`Posted.frame`), and one that makes a single source done appends its
entry (`Posted.post`). Entries are counted by counting sources (`Posted.exists_sources`).
-/

namespace Fclient.Base

variable {ι β : Type*} {done done' : ι → β → Prop} {log : List (ι × β)}

structure Posted (done : ι → β → Prop) (log : List (ι × β)) : Prop where
  nodup : (log.map Prod.fst).Nodup
  mem_iff : ∀ i b, (i, b) ∈ log ↔ done i b

namespace Posted

theorem nil (h : ∀ i b, ¬ done i b) : Posted done [] where
  nodup := List.nodup_nil
  mem_iff i b := iff_of_false List.not_mem_nil (h i b)

theorem frame (h : Posted done log) (heq : ∀ i b, done' i b ↔ done i b) : Posted done' log where
  nodup := h.nodup
  mem_iff i b := (h.mem_iff i b).trans (heq i b).symm

theorem post (h : Posted done log) {i : ι} {b : β} (hnew : ∀ c, ¬ done i c)
    (heq : ∀ j c, done' j c ↔ done j c ∨ j = i ∧ c = b) : Posted done' (log ++ [(i, b)]) where
  nodup := by
    rw [List.map_append, List.nodup_append]
    refine ⟨h.nodup, List.nodup_singleton _, ?_⟩
    intro j hj k hk hjk
    obtain ⟨⟨j', c⟩, hmem, rfl⟩ := List.mem_map.1 hj
    rw [List.map_singleton, List.mem_singleton] at hk
    obtain rfl : j' = i := hjk.trans hk
    exact hnew c ((h.mem_iff _ _).1 hmem)
  mem_iff j c := by
    rw [List.mem_append, List.mem_singleton, h.mem_iff, heq, Prod.mk.injEq]

/-- As many entries have a property as sources have posted one with it. -/
theorem exists_sources (h : Posted done log) (p : β → Bool) :
    ∃ is : List ι, is.Nodup ∧ (∀ i, i ∈ is ↔ ∃ b, done i b ∧ p b = true) ∧
      is.length = (log.map Prod.snd).countP p := by
  refine ⟨(log.filter fun e => p e.2).map Prod.fst, ?_, fun i => ?_, ?_⟩
  · exact h.nodup.sublist (List.filter_sublist.map Prod.fst)
  · constructor
    · intro hi
      obtain ⟨⟨i', b⟩, hmem, rfl⟩ := List.mem_map.1 hi
      obtain ⟨hlog, hp⟩ := List.mem_filter.1 hmem
      exact ⟨b, (h.mem_iff _ _).1 hlog, hp⟩
    · rintro ⟨b, hdone, hp⟩
      exact List.mem_map.2 ⟨(i, b), List.mem_filter.2 ⟨(h.mem_iff i b).2 hdone, hp⟩, rfl⟩
  · rw [List.length_map, List.countP_map, List.countP_eq_length_filter]
    rfl

end Posted

end Fclient.Base

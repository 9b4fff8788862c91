import Fclient.Base.Shuffle
import Fclient.Client.Pinpad

/-!
# The layouts of the pinpad

`ShuffleKeys` is one pass of swaps over the ten keys (`shuffleKeys_eq`), with the index of a random
byte below ten (`toInt_keyIndex`). It produces the permutations of the labels and no other layout
(`shuffleKeys_permutations`).
-/

namespace Fclient.Verify

open Base Client

variable {α : Type*}

theorem shuffleKeys_eq (rnd : Fin 10 → JByte) (keys : Fin 10 → α) :
    shuffleKeys rnd keys = shuffle (fun i => keyIndex (rnd i)) (List.finRange 10) keys := rfl

theorem keyIndex_surjective (j : Fin 10) : ∃ b, keyIndex b = j := by
  refine ⟨Int8.ofNat j, ?_⟩
  decide +revert

/-- `& 0xFF` takes the bits of the byte without its sign. -/
theorem toBitVec_and_byte (b : JByte) :
    (b.toInt32 &&& 0xFF).toBitVec = b.toBitVec.setWidth 32 := by
  rw [Int32.toBitVec_and, Int8.toBitVec_toInt32]
  ext i hi
  have h255 : (0xFF : Int32).toBitVec = (BitVec.allOnes 8).setWidth 32 := rfl
  rw [h255, BitVec.getElem_and, BitVec.getElem_signExtend, BitVec.getElem_setWidth,
    BitVec.getElem_setWidth, BitVec.getLsbD_allOnes]
  split
  · rename_i h8
    rw [decide_eq_true h8, Bool.and_true, BitVec.getLsbD_eq_getElem h8]
  · rename_i h8
    rw [decide_eq_false h8, Bool.and_false, BitVec.getLsbD_of_ge _ _ (Nat.le_of_not_lt h8)]

theorem toInt_and_byte (b : JByte) : (b.toInt32 &&& 0xFF).toInt = b.toUInt8.toNat := by
  have hlt := b.toBitVec.isLt
  rw [← Int32.toInt_toBitVec, toBitVec_and_byte, BitVec.toInt_setWidth]
  show Int.bmod b.toBitVec.toNat _ = (b.toBitVec.toNat : Int)
  rw [Int.bmod_eq_of_le] <;> omega

/-- The index as the code computes it is the one of a key. -/
theorem toInt_keyIndex (b : JByte) : ((b.toInt32 &&& 0xFF) % 10).toInt = (keyIndex b).val := by
  rw [Int32.toInt_mod, toInt_and_byte]
  rfl

/-- What random bytes do is one permutation, whatever the labels are. -/
theorem exists_perm (rnd : Fin 10 → JByte) :
    ∃ σ : Equiv.Perm (Fin 10), ∀ keys : Fin 10 → α, shuffleKeys rnd keys = keys ∘ σ :=
  ⟨_, fun keys => shuffle_eq_comp _ _ keys⟩

/-- Every permutation is what some random bytes do. -/
theorem exists_rnd (σ : Equiv.Perm (Fin 10)) :
    ∃ rnd, ∀ keys : Fin 10 → α, shuffleKeys rnd keys = keys ∘ σ := by
  obtain ⟨idx, hidx⟩ := exists_choices (List.nodup_finRange 10) (σ := σ) fun i hi =>
    absurd (List.mem_finRange i) hi
  choose byte hbyte using keyIndex_surjective
  refine ⟨fun i => byte (idx i), fun keys => ?_⟩
  rw [shuffleKeys_eq, shuffle_eq_comp]
  simp only [hbyte, hidx]

/-- **The layouts.** Every index is one of a key, the labels stay the same ones, and random bytes
lead to the layouts that permutations of the keys do. -/
theorem shuffleKeys_permutations (keys : Fin 10 → α) :
    (∀ b : JByte, ((b.toInt32 &&& 0xFF) % 10).toInt = (keyIndex b).val) ∧
      (∀ rnd, (List.ofFn (shuffleKeys rnd keys)).Perm (List.ofFn keys)) ∧
      Set.range (fun rnd => shuffleKeys rnd keys) =
        Set.range fun σ : Equiv.Perm (Fin 10) => keys ∘ σ := by
  refine ⟨toInt_keyIndex, fun rnd => ?_, ?_⟩
  · obtain ⟨σ, hσ⟩ := @exists_perm α rnd
    rw [hσ keys]
    exact Equiv.Perm.ofFn_comp_perm _ keys
  · ext layout
    constructor
    · rintro ⟨rnd, rfl⟩
      obtain ⟨σ, hσ⟩ := @exists_perm α rnd
      exact ⟨σ, (hσ keys).symm⟩
    · rintro ⟨σ, rfl⟩
      obtain ⟨rnd, hσ⟩ := @exists_rnd α σ
      exact ⟨rnd, hσ keys⟩

end Fclient.Verify

import Mathlib.Logic.Function.Basic
import Mathlib.Tactic.Positivity

/-!
# Flat memory around a buffer

`Memory α` gives the cell at every offset from the start of a buffer, those in front of the buffer
and past its end included. `storeList` fills a prefix, `loadBlock` and `storeBlock` access `n` cells
at an offset, and `blockLoop` transforms the first blocks in place, one after the other.
`mapBlocks` is what such a loop computes: every block of the original memory transformed once
(`blockLoop_eq`).
-/

namespace Fclient.Base

/-- The cells at all offsets from the start of a buffer. -/
abbrev Memory (α : Type*) := Int → α

namespace Memory

variable {α : Type*}

def store (m : Memory α) (a : Int) (v : α) : Memory α := Function.update m a v

/-- Write the list to the cells from offset `0` on. -/
def storeList (m : Memory α) (l : List α) : Memory α :=
  fun a => if 0 ≤ a then l.getD a.toNat (m a) else m a

def read (m : Memory α) (n : Nat) : List α := (List.range n).map fun i : Nat => m i

theorem store_apply (m : Memory α) (a b : Int) (v : α) :
    m.store a v b = if b = a then v else m b := Function.update_apply m a v b

theorem storeList_of_lt (m : Memory α) (l : List α) {i : Nat} (h : i < l.length) :
    m.storeList l i = l[i] := by
  simp [storeList, h]

theorem storeList_of_ge (m : Memory α) (l : List α) {a : Int} (h : l.length ≤ a) :
    m.storeList l a = m a := by
  unfold storeList
  split
  · rw [List.getD_eq_getElem?_getD, List.getElem?_eq_none (by omega)]
    rfl
  · rfl

@[simp] theorem length_read (m : Memory α) (n : Nat) : (m.read n).length = n := by simp [read]

theorem getElem_read (m : Memory α) {n i : Nat} (h : i < (m.read n).length) :
    (m.read n)[i] = m i := by
  simp [read]

theorem read_eq_iff (m : Memory α) (n : Nat) (l : List α) :
    m.read n = l ↔ l.length = n ∧ ∀ i (h : i < l.length), m i = l[i] := by
  constructor
  · rintro rfl
    exact ⟨length_read m n, fun i h => (getElem_read m h).symm⟩
  · rintro ⟨rfl, h⟩
    exact List.ext_getElem (length_read _ _) fun i _ hi => by rw [getElem_read]; exact h i hi

theorem read_congr {m m' : Memory α} {n : Nat} (h : ∀ i : Nat, i < n → m i = m' i) :
    m.read n = m'.read n := by
  unfold read
  exact List.map_congr_left fun i hi => h i (List.mem_range.1 hi)

theorem read_prefix (m : Memory α) {k n : Nat} (h : k ≤ n) : m.read k <+: m.read n := by
  obtain ⟨d, rfl⟩ := Nat.exists_eq_add_of_le h
  simp only [read, List.range_add, List.map_append]
  exact List.prefix_append _ _

theorem read_storeList (m : Memory α) {l : List α} {n : Nat} (hn : n ≤ l.length) :
    (m.storeList l).read n = l.take n := by
  rw [read_eq_iff]
  refine ⟨List.length_take_of_le hn, fun i hi => ?_⟩
  rw [List.length_take] at hi
  rw [storeList_of_lt m l (by omega), List.getElem_take]

/-- Behind the first of two strings, the memory is as if only the second had been stored. -/
theorem read_storeList_append (m : Memory α) (a b : List α) (n : Nat) :
    (m.storeList (a ++ b)).read (a.length + n) =
      a ++ (storeList (fun c => m (a.length + c)) b).read n := by
  rw [read_eq_iff]
  refine ⟨by rw [List.length_append, length_read], fun i hi => ?_⟩
  rw [List.length_append, length_read] at hi
  by_cases ha : i < a.length
  · rw [storeList_of_lt m _ (by rw [List.length_append]; omega), List.getElem_append_left ha,
      List.getElem_append_left ha]
  · obtain ⟨j, rfl⟩ := Nat.exists_eq_add_of_le (Nat.le_of_not_lt ha)
    rw [List.getElem_append_right (Nat.le_add_right _ _), getElem_read, Nat.add_sub_cancel_left]
    by_cases hb : j < b.length
    · rw [storeList_of_lt m _ (by rw [List.length_append]; omega), storeList_of_lt _ b hb,
        List.getElem_append_right (Nat.le_add_right _ _)]
      simp only [Nat.add_sub_cancel_left]
    · rw [storeList_of_ge m _ (by rw [List.length_append]; omega), storeList_of_ge _ b (by omega),
        Int.natCast_add]

/-- Storing what is there already changes nothing. -/
theorem storeList_append_self (m : Memory α) (l : List α) (d : Nat) :
    m.storeList (l ++ (List.range d).map fun i => m (l.length + i : Nat)) = m.storeList l := by
  have hlen : (l ++ (List.range d).map fun i => m (l.length + i : Nat)).length = l.length + d := by
    rw [List.length_append, List.length_map, List.length_range]
  funext c
  by_cases h0 : 0 ≤ c
  · obtain ⟨i, rfl⟩ := Int.eq_ofNat_of_zero_le h0
    by_cases hl : i < l.length
    · rw [storeList_of_lt m l hl, storeList_of_lt m _ (by omega), List.getElem_append_left hl]
    · rw [storeList_of_ge m l (by omega)]
      by_cases hd : i < l.length + d
      · have hsum : l.length + (i - l.length) = i := by omega
        rw [storeList_of_lt m _ (by omega), List.getElem_append_right (by omega),
          List.getElem_map, List.getElem_range, hsum]
      · rw [storeList_of_ge m _ (by omega)]
  · rw [storeList, if_neg h0, storeList, if_neg h0]

/-! ## Blocks -/

variable {n : Nat}

def loadBlock (n : Nat) (m : Memory α) (a : Int) : Fin n → α := fun k => m (a + k)

def storeBlock (m : Memory α) (a : Int) (b : Fin n → α) : Memory α :=
  fun c => if h : a ≤ c ∧ c < a + n then b ⟨(c - a).toNat, by omega⟩ else m c

/-- Transform the blocks `0`, …, `cnt - 1` in place, in this order. -/
def blockLoop (f : (Fin n → α) → (Fin n → α)) (m : Memory α) : Nat → Memory α
  | 0 => m
  | cnt + 1 =>
    let m' := blockLoop f m cnt
    m'.storeBlock (cnt * n) (f (m'.loadBlock n (cnt * n)))

/-- The memory with its first `cnt` blocks transformed, each from its original content. -/
def mapBlocks [NeZero n] (f : (Fin n → α) → (Fin n → α)) (m : Memory α) (cnt : Nat) : Memory α :=
  fun c => if 0 ≤ c ∧ c < cnt * n then
      f (m.loadBlock n (c / n * n)) (Fin.ofNat n (c % n).toNat)
    else m c

theorem storeBlock_apply_add (m : Memory α) (a : Int) (b : Fin n → α) (k : Fin n) :
    m.storeBlock a b (a + k) = b k := by
  unfold storeBlock
  rw [dif_pos (by omega)]
  congr
  omega

theorem storeBlock_of_lt (m : Memory α) {a c : Int} (b : Fin n → α) (h : c < a) :
    m.storeBlock a b c = m c := by
  unfold storeBlock
  rw [dif_neg (by omega)]

theorem storeBlock_of_ge (m : Memory α) {a c : Int} (b : Fin n → α) (h : a + n ≤ c) :
    m.storeBlock a b c = m c := by
  unfold storeBlock
  rw [dif_neg (by omega)]

section MapBlocks

variable [NeZero n] (f : (Fin n → α) → (Fin n → α)) (m : Memory α)

theorem mapBlocks_of_ge {cnt : Nat} {c : Int} (h : cnt * n ≤ c) : mapBlocks f m cnt c = m c := by
  unfold mapBlocks
  rw [if_neg (by omega)]

theorem mapBlocks_of_neg {cnt : Nat} {c : Int} (h : c < 0) : mapBlocks f m cnt c = m c := by
  unfold mapBlocks
  rw [if_neg (by omega)]

theorem mapBlocks_apply {cnt i : Nat} (hi : i < cnt) (k : Fin n) :
    mapBlocks f m cnt (i * n + k) = f (m.loadBlock n (i * n)) k := by
  have hn : (0 : Int) < n := by have := NeZero.pos n; omega
  have hk : (k : Int) < n := by omega
  have hle : ((i : Int) + 1) * n ≤ cnt * n := by
    have : (i : Int) + 1 ≤ cnt := by omega
    exact Int.mul_le_mul_of_nonneg_right this hn.le
  have hpos : (0 : Int) ≤ i * n := by positivity
  have hdiv : ((i : Int) * n + k) / n = i := by
    rw [Int.add_comm, Int.add_mul_ediv_right _ _ hn.ne', Int.ediv_eq_zero_of_lt (by omega) hk]
    omega
  have hmod : ((i : Int) * n + k) % n = k := by
    rw [Int.add_comm, Int.add_mul_emod_self_right, Int.emod_eq_of_lt (by omega) hk]
  unfold mapBlocks
  rw [if_pos ⟨by omega, by rw [Int.add_mul, Int.one_mul] at hle; omega⟩, hdiv, hmod]
  congr
  ext
  simp [Fin.ofNat, Nat.mod_eq_of_lt k.isLt]

/-- Every offset of a transformed block has a block number and a cell number. -/
theorem exists_cell {cnt : Nat} {c : Int} (h0 : 0 ≤ c) (h : c < cnt * n) :
    ∃ i : Nat, i < cnt ∧ ∃ k : Fin n, c = i * n + k := by
  have hn : (0 : Int) < n := by have := NeZero.pos n; omega
  have hmod := Int.emod_lt_of_pos c hn
  have hmod0 := Int.emod_nonneg c hn.ne'
  have hdiv0 : 0 ≤ c / n := Int.ediv_nonneg h0 hn.le
  have hdiv : c / n < cnt := Int.ediv_lt_of_lt_mul hn h
  refine ⟨(c / n).toNat, by omega, ⟨(c % n).toNat, by omega⟩, ?_⟩
  have := Int.mul_ediv_add_emod c n
  simp only [Int.toNat_of_nonneg hdiv0, Int.toNat_of_nonneg hmod0]
  rw [Int.mul_comm]
  exact this.symm

theorem loadBlock_mapBlocks {cnt i : Nat} (hi : i < cnt) :
    (mapBlocks f m cnt).loadBlock n (i * n) = f (m.loadBlock n (i * n)) :=
  funext fun k => mapBlocks_apply f m hi k

/-- The transformed cells depend on the original cells of the blocks only. -/
theorem mapBlocks_congr {m m' : Memory α} {cnt : Nat}
    (h : ∀ c : Int, 0 ≤ c → c < cnt * n → m c = m' c) {c : Int} (h0 : 0 ≤ c) (hc : c < cnt * n) :
    mapBlocks f m cnt c = mapBlocks f m' cnt c := by
  obtain ⟨i, hi, k, rfl⟩ := exists_cell h0 hc
  rw [mapBlocks_apply f m hi, mapBlocks_apply f m' hi]
  have hload : m.loadBlock n (i * n) = m'.loadBlock n (i * n) := by
    funext j
    have hle : ((i : Int) + 1) * n ≤ cnt * n :=
      Int.mul_le_mul_of_nonneg_right (by omega) (by omega)
    have hpos : (0 : Int) ≤ i * n := by positivity
    rw [Int.add_mul, Int.one_mul] at hle
    exact h _ (by omega) (by omega)
  rw [hload]

/-- **The in-place loop transforms every block once, from its original content**, and touches no
other cell. -/
theorem blockLoop_eq (cnt : Nat) : blockLoop f m cnt = mapBlocks f m cnt := by
  induction cnt with
  | zero =>
    funext c
    unfold mapBlocks
    rw [if_neg (by omega)]
    rfl
  | succ cnt ih =>
    funext c
    have hsucc : ((cnt : Int) + 1) * n = cnt * n + n := by rw [Int.add_mul, Int.one_mul]
    have hpos : (0 : Int) ≤ cnt * n := by positivity
    simp only [blockLoop, ih]
    by_cases h0 : c < 0
    · rw [storeBlock_of_lt _ _ (by omega), mapBlocks_of_neg f m h0, mapBlocks_of_neg f m h0]
    by_cases h1 : c < cnt * n
    · -- an earlier block: the store of block `cnt` leaves it alone
      rw [storeBlock_of_lt _ _ h1]
      obtain ⟨i, hi, k, rfl⟩ := exists_cell (by omega) h1
      rw [mapBlocks_apply f m hi, mapBlocks_apply f m (Nat.lt_succ_of_lt hi)]
    by_cases h2 : c < cnt * n + n
    · obtain ⟨k, rfl⟩ : ∃ k : Fin n, c = cnt * n + k :=
        ⟨⟨(c - cnt * n).toNat, by omega⟩, by simp only; omega⟩
      have hload : (mapBlocks f m cnt).loadBlock n (cnt * n) = m.loadBlock n (cnt * n) :=
        funext fun j => mapBlocks_of_ge f m (by omega)
      rw [storeBlock_apply_add, mapBlocks_apply f m (Nat.lt_succ_self cnt), hload]
    · rw [storeBlock_of_ge _ _ (by omega), mapBlocks_of_ge f m (by omega),
        mapBlocks_of_ge f m (by push_cast; omega)]

theorem read_mapBlocks {cnt k : Nat} (hk : k ≤ cnt) : (mapBlocks f m cnt).read (k * n) =
    (List.range k).flatMap fun i : Nat => List.ofFn (f (m.loadBlock n (i * n))) := by
  induction k with
  | zero => simp [read]
  | succ k ih =>
    have hblock : (List.range n).map (fun j : Nat => mapBlocks f m cnt ((k * n + j : Nat) : Int)) =
        List.ofFn (f (m.loadBlock n (k * n))) := by
      apply List.ext_getElem
      · simp
      · intro j hj hj'
        have hcell := mapBlocks_apply f m (i := k) hk ⟨j, by simpa using hj⟩
        simpa using hcell
    rw [Nat.add_mul, Nat.one_mul, read, List.range_add, List.map_append, List.map_map,
      List.range_succ, List.flatMap_append, ← ih (Nat.le_of_succ_le hk)]
    simp only [List.flatMap_singleton]
    exact congrArg _ hblock

/-- Two block loops in a row are one loop with the composed block function. -/
theorem mapBlocks_mapBlocks (g : (Fin n → α) → (Fin n → α)) (cnt : Nat) :
    mapBlocks g (mapBlocks f m cnt) cnt = mapBlocks (g ∘ f) m cnt := by
  funext c
  by_cases h : 0 ≤ c ∧ c < cnt * n
  · obtain ⟨i, hi, k, rfl⟩ := exists_cell h.1 h.2
    rw [mapBlocks_apply g _ hi, mapBlocks_apply (g ∘ f) m hi, loadBlock_mapBlocks f m hi]
    rfl
  · by_cases h0 : c < 0
    · rw [mapBlocks_of_neg g _ h0, mapBlocks_of_neg f m h0, mapBlocks_of_neg _ m h0]
    · rw [mapBlocks_of_ge g _ (by omega), mapBlocks_of_ge f m (by omega),
        mapBlocks_of_ge _ m (by omega)]

theorem mapBlocks_id (cnt : Nat) : mapBlocks (id : (Fin n → α) → (Fin n → α)) m cnt = m := by
  funext c
  by_cases h : 0 ≤ c ∧ c < cnt * n
  · obtain ⟨i, hi, k, rfl⟩ := exists_cell h.1 h.2
    rw [mapBlocks_apply _ m hi]
    rfl
  · unfold mapBlocks
    rw [if_neg h]

theorem mapBlocks_cancel {f g : (Fin n → α) → (Fin n → α)} (h : Function.LeftInverse g f)
    (cnt : Nat) : mapBlocks g (mapBlocks f m cnt) cnt = m := by
  rw [mapBlocks_mapBlocks, h.comp_eq_id, mapBlocks_id]

end MapBlocks

end Memory

end Fclient.Base

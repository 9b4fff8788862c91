import Mathlib.Data.List.Infix

/-!
# Backtracking regular expressions

The patterns of literals, groups and a reluctant `+` over a class of characters. `results r s` lists
the ways in which `r` matches a beginning of `s` in the order in which a backtracking matcher tries
them, so that its answer is the first; `find` takes the leftmost start that has one. A character may
be several items long (a surrogate pair, say); `Respects` says that no character reaches over an
item it does not begin with.
-/

namespace Fclient.Base

/-- A class of characters, by the number of items that its character at the front of the input
takes; 0 if the input does not begin with one. -/
structure CharClass (α : Type*) where
  size : List α → Nat
  size_le : ∀ s, size s ≤ s.length

inductive Regex (α : Type*)
  | literal (l : List α)
  | reluctantPlus (c : CharClass α)
  | group (r : Regex α)
  | seq (r₁ r₂ : Regex α)

/-- A match at the front of an input, with its groups in the order of their opening brackets. -/
structure Match (α : Type*) where
  text : List α
  rest : List α
  groups : List (List α)

variable {α : Type*}

/-- `group(n)`: the whole match is group 0. -/
def Match.group (m : Match α) (n : Nat) : Option (List α) := (m.text :: m.groups)[n]?

/-! ## Words and delimiters -/

/-- A word that begins with an item it does not hold again ends before the next such item. -/
theorem prefix_of_prefix_append {a : α} {o x y : List α} (ha : a ∉ o) (hx : x ≠ [])
    (h : a :: o <+: x ++ a :: y) : a :: o <+: x := by
  have hmid : x ++ [a] <+: x ++ a :: y := by simp
  obtain ⟨d, x, rfl⟩ := List.exists_cons_of_ne_nil hx
  rcases List.prefix_or_prefix_of_prefix h hmid with hle | hle
  · rcases List.prefix_concat_iff.1 hle with heq | hle
    · obtain ⟨-, rfl⟩ := List.cons.inj heq
      exact absurd (List.mem_append_right x List.mem_cons_self) ha
    · exact hle
  · obtain ⟨-, hle⟩ := List.cons_prefix_cons.1 hle
    exact absurd (hle.subset (List.mem_append_right x List.mem_cons_self)) ha

/-- `t` is the shortest text at the front of `s` with `k` behind it, the empty text apart. -/
structure Shortest (k s t : List α) : Prop where
  ne_nil : t ≠ []
  isPrefix : t ++ k <+: s
  least : ∀ t', t' ≠ [] → t' ++ k <+: s → t.length ≤ t'.length

theorem Shortest.unique {k s t u : List α} (ht : Shortest k s t) (hu : Shortest k s u) :
    t = u := by
  have hlen := Nat.le_antisymm (ht.least u hu.ne_nil hu.isPrefix) (hu.least t ht.ne_nil ht.isPrefix)
  have htk := (List.prefix_append t k).trans ht.isPrefix
  have huk := (List.prefix_append u k).trans hu.isPrefix
  exact (List.prefix_of_prefix_length_le htk huk (Nat.le_of_eq hlen)).eq_of_length hlen

/-- The text in front of the first delimiter is the shortest. -/
theorem shortest_of_not_contains {b : α} {k t : List α} (hb : b ∉ k) (hne : t ≠ [])
    (ht : ¬ b :: k <:+: t) (post : List α) : Shortest (b :: k) (t ++ b :: k ++ post) t := by
  refine ⟨hne, List.prefix_append _ _, fun u hu huk => ?_⟩
  by_contra hlt
  have hut : u <+: t := by
    refine List.prefix_of_prefix_length_le ((List.prefix_append u _).trans huk) ?_
      (Nat.le_of_not_le hlt)
    rw [List.append_assoc]
    exact List.prefix_append t _
  obtain ⟨x, rfl⟩ := hut
  have hx : x ≠ [] := by
    rintro rfl
    simp at hlt
  rw [List.append_assoc, List.append_assoc, List.prefix_append_right_inj] at huk
  have hinside := (prefix_of_prefix_append hb hx huk).isInfix
  exact ht (hinside.trans (List.suffix_append u x).isInfix)

/-- A delimiter inside the shortest text can only be at its front. -/
theorem Shortest.prefix_of_contains {k s t : List α} (h : Shortest k s t) (hk : k ≠ [])
    (hinside : k <:+: t) : k <+: t := by
  obtain ⟨x, y, rfl⟩ := hinside
  by_cases hx : x = []
  · subst hx
    exact List.prefix_append k y
  · have hfront : x ++ k <+: s := by
      refine List.IsPrefix.trans ?_ h.isPrefix
      rw [List.append_assoc (x ++ k)]
      exact List.prefix_append (x ++ k) _
    have hle := h.least x hx hfront
    have hpos := List.length_pos_iff.2 hk
    simp only [List.length_append] at hle
    omega

/-- A delimiter at the front of `s` is taken into the text, since the text is not empty. -/
theorem Shortest.prefix_of_prefix {b : α} {k s t : List α} (hb : b ∉ k)
    (h : Shortest (b :: k) s t) (hs : b :: k <+: s) : b :: k <+: t := by
  obtain ⟨post, rfl⟩ := h.isPrefix
  rw [List.append_assoc, List.cons_append] at hs
  exact prefix_of_prefix_append hb h.ne_nil hs

/-! ## Runs of a class -/

namespace CharClass

/-- What `c+?` takes from the front of `s`: one character, then two, and so on. -/
def runs (c : CharClass α) : Nat → List α → List (List α)
  | 0, _ => []
  | fuel + 1, s =>
    if c.size s = 0 then []
    else s.take (c.size s) :: (runs c fuel (s.drop (c.size s))).map (s.take (c.size s) ++ ·)

/-- There is a character everywhere, and none that begins before an item `b` ends behind it. -/
def Respects (c : CharClass α) (b : α) : Prop :=
  ∀ a s, 0 < c.size (a :: s) ∧ b ∉ s.take (c.size (a :: s) - 1)

variable {c : CharClass α} {b : α}

theorem mem_runs {fuel : Nat} {s t : List α} (h : t ∈ c.runs fuel s) : t ≠ [] ∧ t <+: s := by
  induction fuel generalizing s t with
  | zero => exact absurd h List.not_mem_nil
  | succ fuel ih =>
    unfold runs at h
    split at h
    · exact absurd h List.not_mem_nil
    · rename_i hsize
      have hpos : 0 < (s.take (c.size s)).length := by
        rw [List.length_take, Nat.min_eq_left (c.size_le s)]
        exact Nat.pos_of_ne_zero hsize
      have hne : s.take (c.size s) ≠ [] := List.ne_nil_of_length_pos hpos
      rcases List.mem_cons.1 h with rfl | h
      · exact ⟨hne, List.take_prefix _ _⟩
      · obtain ⟨u, hu, rfl⟩ := List.mem_map.1 h
        refine ⟨List.append_ne_nil_of_left_ne_nil hne u, ?_⟩
        have hfront := (ih hu).2
        rwa [← List.prefix_append_right_inj (s.take (c.size s)), List.take_append_drop] at hfront

theorem runs_pairwise (c : CharClass α) (fuel : Nat) (s : List α) :
    (c.runs fuel s).Pairwise fun t u => t.length < u.length := by
  induction fuel generalizing s with
  | zero => exact List.Pairwise.nil
  | succ fuel ih =>
    unfold runs
    split
    · exact List.Pairwise.nil
    · refine List.pairwise_cons.2 ⟨fun t ht => ?_, ?_⟩
      · obtain ⟨u, hu, rfl⟩ := List.mem_map.1 ht
        rw [List.length_append]
        exact Nat.lt_add_of_pos_right (List.length_pos_iff.2 (mem_runs hu).1)
      · refine List.Pairwise.map _ (fun t u htu => ?_) (ih _)
        rw [List.length_append, List.length_append]
        exact Nat.add_lt_add_left htu _

theorem Respects.size_le (hc : c.Respects b) (a : α) (t r : List α) :
    c.size (a :: t ++ b :: r) ≤ (a :: t).length := by
  obtain ⟨-, hnot⟩ := hc a (t ++ b :: r)
  by_contra hlt
  have htake : t ++ [b] <+: (t ++ b :: r).take (c.size (a :: (t ++ b :: r)) - 1) := by
    refine List.prefix_take_iff.2 ⟨by simp, ?_⟩
    rw [List.length_append, List.length_singleton]
    simp only [List.cons_append, List.length_cons] at hlt
    omega
  exact hnot (htake.subset (List.mem_append_right t List.mem_cons_self))

/-- Every text in front of a respected item is tried. -/
theorem Respects.mem_runs (hc : c.Respects b) {fuel : Nat} {t r : List α} (hne : t ≠ [])
    (hfuel : t.length ≤ fuel) : t ∈ c.runs fuel (t ++ b :: r) := by
  induction fuel generalizing t with
  | zero => exact absurd (List.length_eq_zero_iff.1 (Nat.le_zero.1 hfuel)) hne
  | succ fuel ih =>
    obtain ⟨a, t', rfl⟩ := List.exists_cons_of_ne_nil hne
    have hpos : 0 < c.size (a :: t' ++ b :: r) := (hc a (t' ++ b :: r)).1
    have hle := hc.size_le a t' r
    unfold runs
    rw [if_neg (Nat.pos_iff_ne_zero.1 hpos), List.take_append_of_le_length hle,
      List.drop_append_of_le_length hle]
    generalize c.size (a :: t' ++ b :: r) = n at hpos hle
    generalize a :: t' = t at hfuel hle
    by_cases heq : n = t.length
    · rw [heq, List.take_length]
      exact List.mem_cons_self
    · have hdrop : t.drop n ∈ c.runs fuel (t.drop n ++ b :: r) := by
        refine ih ?_ (by rw [List.length_drop]; omega)
        rw [Ne, List.drop_eq_nil_iff]
        omega
      refine List.mem_cons_of_mem _ (List.mem_map.2 ⟨t.drop n, hdrop, ?_⟩)
      exact List.take_append_drop n t

end CharClass

/-! ## Matching and searching -/

namespace Regex

section Matcher

variable [DecidableEq α]

def results : Regex α → List α → List (Match α)
  | .literal l, s => if l.isPrefixOf s then [⟨l, s.drop l.length, []⟩] else []
  | .reluctantPlus c, s => (c.runs s.length s).map fun t => ⟨t, s.drop t.length, []⟩
  | .group r, s => (results r s).map fun m => { m with groups := m.text :: m.groups }
  | .seq r₁ r₂, s => (results r₁ s).flatMap fun m₁ => (results r₂ m₁.rest).map fun m₂ =>
      ⟨m₁.text ++ m₂.text, m₂.rest, m₁.groups ++ m₂.groups⟩

/-- The first match at the leftmost start that has one. -/
def find (r : Regex α) : List α → Option (Match α)
  | [] => (r.results []).head?
  | a :: s => (r.results (a :: s)).head?.or (find r s)

/-- Nothing matches at the starts in `pre`, when `s` follows. -/
def NoneBefore (r : Regex α) (pre s : List α) : Prop :=
  ∀ t, t ≠ [] → t <:+ pre → r.results (t ++ s) = []

variable {r : Regex α}

theorem find_append {pre s : List α} (h : r.NoneBefore pre s) (hs : r.results s ≠ []) :
    r.find (pre ++ s) = (r.results s).head? := by
  induction pre with
  | nil =>
    obtain ⟨m, ms, hm⟩ := List.exists_cons_of_ne_nil hs
    cases s with
    | nil => rfl
    | cons a s => rw [List.nil_append, find, hm, List.head?_cons, Option.some_or]
  | cons a pre ih =>
    have hfirst := h (a :: pre) (List.cons_ne_nil a pre) (List.suffix_refl _)
    have hrest := ih fun t hne ht => h t hne (ht.trans (List.suffix_cons a pre))
    rw [List.cons_append] at hfirst ⊢
    rw [find, hfirst, List.head?_nil, Option.none_or, hrest]

/-- Either no start matches, or there is a leftmost one. -/
theorem find_cases (r : Regex α) (s : List α) :
    (r.find s = none ∧ ∀ t, t <:+ s → r.results t = []) ∨
      ∃ pre t, s = pre ++ t ∧ r.NoneBefore pre t ∧ r.results t ≠ [] := by
  induction s with
  | nil =>
    by_cases hnil : r.results [] = []
    · refine .inl ⟨by rw [find, hnil, List.head?_nil], fun t ht => ?_⟩
      rwa [List.suffix_nil.1 ht]
    · refine .inr ⟨[], [], rfl, fun t hne ht => ?_, hnil⟩
      exact absurd (List.suffix_nil.1 ht) hne
  | cons a s ih =>
    by_cases hnil : r.results (a :: s) = []
    · rcases ih with ⟨hfind, hall⟩ | ⟨pre, t, rfl, hbefore, ht⟩
      · refine .inl ⟨by rw [find, hnil, List.head?_nil, Option.none_or, hfind], fun t ht => ?_⟩
        rcases List.suffix_cons_iff.1 ht with rfl | ht
        · exact hnil
        · exact hall t ht
      · refine .inr ⟨a :: pre, t, rfl, fun u hne hu => ?_, ht⟩
        rcases List.suffix_cons_iff.1 hu with rfl | hu
        · exact hnil
        · exact hbefore u hne hu
    · refine .inr ⟨[], a :: s, rfl, fun t hne ht => ?_, hnil⟩
      exact absurd (List.suffix_nil.1 ht) hne

/-! ## Delimited text -/

/-- `o(c+?)k`. -/
def delimited (o : List α) (c : CharClass α) (k : List α) : Regex α :=
  .seq (.literal o) (.seq (.group (.reluctantPlus c)) (.literal k))

/-- The contents that the matcher tries with success, in its order. -/
def contents (c : CharClass α) (k s : List α) : List (List α) :=
  (c.runs s.length s).filter fun t => k.isPrefixOf (s.drop t.length)

theorem results_delimited (o : List α) (c : CharClass α) (k s : List α) :
    (delimited o c k).results (o ++ s) = (contents c k s).map fun t =>
      ⟨o ++ (t ++ k), (s.drop t.length).drop k.length, [t]⟩ := by
  have ho : o.isPrefixOf (o ++ s) = true := by simp
  simp only [delimited, results, ho, if_true, List.flatMap_cons, List.flatMap_nil, List.append_nil,
    List.drop_left, List.map_flatMap, List.flatMap_map, contents, List.nil_append]
  induction c.runs s.length s with
  | nil => rfl
  | cons t ts ih =>
    rw [List.flatMap_cons, ih, List.filter_cons]
    cases k.isPrefixOf (s.drop t.length) with
    | true => rfl
    | false => rfl

theorem results_delimited_of_not_open {o : List α} (c : CharClass α) (k : List α) {s : List α}
    (h : ¬ o <+: s) : (delimited o c k).results s = [] := by
  rw [← List.isPrefixOf_iff_prefix] at h
  simp only [delimited, results, h, Bool.false_eq_true, if_false, List.flatMap_nil]

section Delimited

variable {c : CharClass α} {b : α} (hc : c.Respects b) {k : List α}

include hc in
theorem mem_contents {s t : List α} :
    t ∈ contents c (b :: k) s ↔ t ≠ [] ∧ t ++ b :: k <+: s := by
  unfold contents
  rw [List.mem_filter, List.isPrefixOf_iff_prefix]
  constructor
  · rintro ⟨hruns, hk⟩
    obtain ⟨hne, u, rfl⟩ := CharClass.mem_runs hruns
    rw [List.drop_left] at hk
    exact ⟨hne, (List.prefix_append_right_inj t).2 hk⟩
  · rintro ⟨hne, u, rfl⟩
    rw [List.append_assoc, List.drop_left]
    refine ⟨hc.mem_runs hne ?_, List.prefix_append _ _⟩
    rw [List.length_append]
    exact Nat.le_add_right _ _

include hc in
theorem results_delimited_eq_nil (o : List α) {s : List α} :
    (delimited o c (b :: k)).results (o ++ s) = [] ↔ ∀ t, t ++ b :: k <+: s → t = [] := by
  rw [results_delimited, List.map_eq_nil_iff, List.eq_nil_iff_forall_not_mem]
  refine forall_congr' fun t => ?_
  rw [mem_contents hc]
  tauto

theorem contents_pairwise (c : CharClass α) (k s : List α) :
    (contents c k s).Pairwise fun t u => t.length < u.length :=
  (c.runs_pairwise s.length s).filter _

include hc in
/-- The first content tried with success is the shortest. -/
theorem shortest_of_head {s t : List α} {ts : List (List α)}
    (h : contents c (b :: k) s = t :: ts) : Shortest (b :: k) s t := by
  have hmem : t ∈ contents c (b :: k) s := by
    rw [h]
    exact List.mem_cons_self
  have hpairwise := contents_pairwise c (b :: k) s
  rw [h] at hpairwise
  obtain ⟨hne, hfront⟩ := (mem_contents hc).1 hmem
  refine ⟨hne, hfront, fun u hu huk => ?_⟩
  have hmemu := (mem_contents hc).2 ⟨hu, huk⟩
  rw [h] at hmemu
  rcases List.mem_cons.1 hmemu with rfl | hts
  · exact Nat.le_refl _
  · exact Nat.le_of_lt ((List.pairwise_cons.1 hpairwise).1 u hts)

include hc in
theorem exists_shortest {s t : List α} (hne : t ≠ []) (h : t ++ b :: k <+: s) :
    ∃ u, Shortest (b :: k) s u := by
  have hmem := (mem_contents hc).2 ⟨hne, h⟩
  obtain ⟨u, us, hus⟩ := List.exists_cons_of_ne_nil (List.ne_nil_of_mem hmem)
  exact ⟨u, shortest_of_head hc hus⟩

include hc in
theorem head_delimited (o : List α) {s t : List α} (h : Shortest (b :: k) s t) :
    ∃ m, ((delimited o c (b :: k)).results (o ++ s)).head? = some m ∧ m.groups = [t] := by
  have hmem := (mem_contents hc).2 ⟨h.ne_nil, h.isPrefix⟩
  obtain ⟨u, us, hus⟩ := List.exists_cons_of_ne_nil (List.ne_nil_of_mem hmem)
  obtain rfl := (shortest_of_head hc hus).unique h
  rw [results_delimited, hus]
  exact ⟨_, rfl, rfl⟩

variable {a : α} {o : List α} (ha : a ∉ o)

include hc ha in
/-- **Search.** The answer is the shortest text behind the first opening delimiter. -/
theorem find_delimited {pre s t : List α} (hpre : ¬ a :: o <:+: pre)
    (h : Shortest (b :: k) s t) :
    ∃ m, (delimited (a :: o) c (b :: k)).find (pre ++ (a :: o ++ s)) = some m ∧
      m.groups = [t] := by
  obtain ⟨m, hm, hgroups⟩ := head_delimited hc (a :: o) h
  refine ⟨m, ?_, hgroups⟩
  rw [find_append _ (by rintro hnil; rw [hnil] at hm; cases hm), hm]
  intro u hne hu
  refine results_delimited_of_not_open c _ fun hfront => hpre ?_
  exact (prefix_of_prefix_append ha hne hfront).isInfix.trans hu.isInfix

include hc in
/-- Without an answer there is no delimited text at all; otherwise some shortest text stands behind
the first opening delimiter. -/
theorem find_delimited_cases (a : α) (o s : List α) :
    ((delimited (a :: o) c (b :: k)).find s = none ∧
        ∀ pre t post, s = pre ++ (a :: o ++ (t ++ b :: k ++ post)) → t = []) ∨
      ∃ pre s' t, s = pre ++ (a :: o ++ s') ∧ ¬ a :: o <:+: pre ∧ Shortest (b :: k) s' t := by
  rcases find_cases (delimited (a :: o) c (b :: k)) s with
    ⟨hfind, hall⟩ | ⟨pre, u, rfl, hbefore, hu⟩
  · refine .inl ⟨hfind, fun pre t post hs => ?_⟩
    have hnil := hall (a :: o ++ (t ++ b :: k ++ post)) ⟨pre, hs.symm⟩
    exact (results_delimited_eq_nil hc _).1 hnil t (List.prefix_append _ _)
  · by_cases hopen : a :: o <+: u
    · obtain ⟨s', rfl⟩ := hopen
      rw [Ne, results_delimited_eq_nil hc] at hu
      push Not at hu
      obtain ⟨t₀, ht₀, hne⟩ := hu
      obtain ⟨t, ht⟩ := exists_shortest hc hne ht₀
      refine .inr ⟨pre, s', t, rfl, fun hinside => ?_, ht⟩
      -- a second opening delimiter only makes the text behind the first one longer
      obtain ⟨x, y, rfl⟩ := hinside
      have hnil := hbefore (a :: o ++ y) (by simp) ⟨x, by simp⟩
      rw [List.append_assoc, results_delimited_eq_nil hc] at hnil
      have hnone := hnil (y ++ (a :: o ++ t)) (by
        simpa only [List.append_assoc, List.prefix_append_right_inj] using ht.isPrefix)
      simp at hnone
    · exact absurd (results_delimited_of_not_open c _ hopen) hu

end Delimited

end Matcher

end Regex

end Fclient.Base

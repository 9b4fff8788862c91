import Fclient.Client.PageTitle

/-!
# Titles

A title that stands behind the first `<title>` and is not empty is recovered, whatever comes before
and behind it (`getPageTitle_embedded`). An empty first element is not skipped: the one character
that `.+?` needs is then the `<` of its own closing tag, and the match runs on to the next
(`titleSound_iff`).
-/

namespace Fclient.Verify

open Base Base.Regex Client

/-! ## The pattern -/

theorem titlePattern_eq : titlePattern =
    delimited (0x3C :: jstr "title>") dotAll (0x3C :: jstr "/title>") := rfl

theorem open_eq : jstr "<title>" = 0x3C :: jstr "title>" := rfl

theorem close_eq : jstr "</title>" = 0x3C :: jstr "/title>" := rfl

theorem not_mem_open : (0x3C : JChar) ∉ jstr "title>" := by decide

theorem not_mem_close : (0x3C : JChar) ∉ jstr "/title>" := by decide

/-- Only the first code unit of a character can be `<`. -/
theorem dotAll_respects : dotAll.Respects 0x3C := by
  intro c s
  match s with
  | [] => exact ⟨Nat.one_pos, List.not_mem_nil⟩
  | d :: s =>
    by_cases hpair : isHighSurrogate c && isLowSurrogate d
    · have hsize : dotAll.size (c :: d :: s) = 2 := if_pos hpair
      rw [hsize]
      refine ⟨Nat.two_pos, fun hmem => ?_⟩
      obtain rfl := List.mem_singleton.1 hmem
      simp [isLowSurrogate] at hpair
    · have hsize : dotAll.size (c :: d :: s) = 1 := if_neg hpair
      rw [hsize]
      exact ⟨Nat.one_pos, List.not_mem_nil⟩

/-! ## What is found -/

theorem getPageTitle_of_shortest {pre s t : JString} (hpre : ¬ jstr "<title>" <:+: pre)
    (h : Shortest (jstr "</title>") s t) :
    getPageTitle (pre ++ (jstr "<title>" ++ s)) = t := by
  rw [open_eq] at hpre ⊢
  rw [close_eq] at h
  obtain ⟨m, hfind, hgroups⟩ := find_delimited dotAll_respects not_mem_open hpre h
  rw [getPageTitle, titlePattern_eq, hfind]
  simp [Match.group, hgroups]

/-- **Every title is recovered** when it is not empty, stands behind the first `<title>` and ends at
the first `</title>` after it. -/
theorem getPageTitle_embedded {pre t : JString} (hpre : ¬ jstr "<title>" <:+: pre) (hne : t ≠ [])
    (ht : ¬ jstr "</title>" <:+: t) (post : JString) :
    getPageTitle (pre ++ jstr "<title>" ++ t ++ jstr "</title>" ++ post) = t := by
  have hshortest : Shortest (jstr "</title>") (t ++ jstr "</title>" ++ post) t :=
    shortest_of_not_contains not_mem_close hne ht post
  simpa only [List.append_assoc] using getPageTitle_of_shortest hpre hshortest

/-- Text in front, and a second title behind. -/
theorem getPageTitle_first :
    getPageTitle (jstr "<head><title>One</title><svg><title>Two</title></svg>") = jstr "One" :=
  @getPageTitle_embedded (jstr "<head>") (jstr "One") (by decide) (by decide) (by decide)
    (jstr "<svg><title>Two</title></svg>")

/-! ## Soundness -/

/-- `t` is the content of a title element of the page, and not empty. -/
def IsTitle (html t : JString) : Prop :=
  t ≠ [] ∧ ¬ jstr "</title>" <:+: t ∧
    ∃ pre post, html = pre ++ jstr "<title>" ++ t ++ jstr "</title>" ++ post

/-- The answer is that there is no title, and there is none, or it is one. -/
def TitleSound (html : JString) : Prop :=
  (getPageTitle html = jstr "Not found" ∧ ∀ t, ¬ IsTitle html t) ∨ IsTitle html (getPageTitle html)

theorem getPageTitle_cases (html : JString) :
    (getPageTitle html = jstr "Not found" ∧ ∀ t, ¬ IsTitle html t) ∨
      ∃ pre s t, html = pre ++ (jstr "<title>" ++ s) ∧ ¬ jstr "<title>" <:+: pre ∧
        Shortest (jstr "</title>") s t := by
  rcases @find_delimited_cases _ _ dotAll _ dotAll_respects (jstr "/title>") 0x3C (jstr "title>")
    html with ⟨hfind, hnone⟩ | h
  · refine .inl ⟨by rw [getPageTitle, titlePattern_eq, hfind], ?_⟩
    rintro t ⟨hne, -, pre, post, rfl⟩
    refine hne (hnone pre t post ?_)
    simp only [open_eq, close_eq, List.append_assoc]
  · exact .inr h

/-- The first element is empty, and another closing tag follows. -/
def EmptyFirst (html : JString) : Prop :=
  ∃ pre mid post, ¬ jstr "<title>" <:+: pre ∧
    html = pre ++ jstr "<title>" ++ jstr "</title>" ++ mid ++ jstr "</title>" ++ post

theorem getPageTitle_of_emptyFirst {html : JString} (h : EmptyFirst html) :
    jstr "</title>" <:+: getPageTitle html := by
  obtain ⟨pre, mid, post, hpre, rfl⟩ := h
  have hne : jstr "</title>" ++ mid ≠ [] := List.cons_ne_nil _ _
  obtain ⟨t, ht⟩ := exists_shortest dotAll_respects hne (List.prefix_append _ post)
  have hclose := ht.prefix_of_prefix not_mem_close ⟨mid ++ jstr "</title>" ++ post, by
    simp only [close_eq, List.append_assoc]⟩
  have htitle := getPageTitle_of_shortest hpre ht
  simp only [close_eq, List.append_assoc] at hclose htitle ⊢
  rw [htitle]
  exact hclose.isInfix

/-- **Soundness** fails for the pages whose first title element is empty and followed by another
closing tag, and for no others. -/
theorem titleSound_iff (html : JString) : TitleSound html ↔
    ¬ ∃ pre mid post, ¬ jstr "<title>" <:+: pre ∧
      html = pre ++ jstr "<title>" ++ jstr "</title>" ++ mid ++ jstr "</title>" ++ post := by
  constructor
  · intro hsound hempty
    have hclose := getPageTitle_of_emptyFirst hempty
    rcases hsound with ⟨hnot, -⟩ | ⟨-, htitle, -⟩
    · rw [hnot] at hclose
      exact absurd hclose (by decide)
    · exact htitle hclose
  · intro hempty
    rcases getPageTitle_cases html with hnone | ⟨pre, s, t, rfl, hpre, ht⟩
    · exact .inl hnone
    · refine .inr ?_
      rw [getPageTitle_of_shortest hpre ht]
      obtain ⟨post, rfl⟩ := ht.isPrefix
      refine ⟨ht.ne_nil, fun hclose => hempty ?_, pre, post, by simp only [List.append_assoc]⟩
      obtain ⟨mid, rfl⟩ := ht.prefix_of_contains (by decide) hclose
      exact ⟨pre, mid, post, hpre, by simp only [List.append_assoc]⟩

/-- An empty title, and the title of a drawing. -/
theorem not_titleSound_svg : ¬ TitleSound (jstr "<title></title><svg><title>x</title>") := by
  have htitle : getPageTitle (jstr "<title></title><svg><title>x</title>") =
      jstr "</title><svg><title>x" := by decide
  rintro (⟨hnot, -⟩ | ⟨-, hclose, -⟩)
  · rw [htitle] at hnot
    exact absurd hnot (by decide)
  · rw [htitle] at hclose
    exact absurd hclose (by decide)

end Fclient.Verify

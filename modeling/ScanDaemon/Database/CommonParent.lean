import ScanDaemon.Database.TopRoot

/-! # The common parent of two paths

`get_common_parent` compares characters. Two paths whose first components differ
have nothing more in common than the beginnings of these components, so that the
cut at the last slash leaves the components that the paths share.
-/

namespace ScanDaemon

open Components IndexReader

/-- The components of an absolute normalised path; those of the root directory are none. -/
structure Normalised (v : List (List Char)) : Prop where
  clean : Clean '/' v
  nonempty : [] ∉ v

/-- The components of the deepest path that is above both paths or one of them. -/
structure DeepestCommon (v w top : List (List Char)) : Prop where
  left : top <+: v
  right : top <+: w
  deepest : ∀ other, other <+: v → other <+: w → other <+: top

variable {a b p q s : Path} {c d : List Char} {v w top : List (List Char)}

theorem Normalised.of_append (h : Normalised (top ++ v)) : Normalised top ∧ Normalised v := by
  refine ⟨⟨fun c hc => h.clean c ?_, fun hn => h.nonempty ?_⟩,
    ⟨fun c hc => h.clean c ?_, fun hn => h.nonempty ?_⟩⟩
  · exact List.mem_append_left _ hc
  · exact List.mem_append_left _ hn
  · exact List.mem_append_right _ hc
  · exact List.mem_append_right _ hn

/-- A path does not end with a slash. -/
theorem Normalised.popSlash_joined (h : Normalised v) :
    popSlash (joined '/' v) = joined '/' v := by
  rw [popSlash, if_neg]
  rintro ⟨-, hlast⟩
  rcases List.eq_nil_or_concat v with rfl | ⟨v, c, rfl⟩
  · cases hlast
  · rw [List.concat_eq_append] at h hlast
    have hc : c ≠ [] := fun he => h.of_append.2.nonempty (he ▸ List.mem_singleton_self c)
    have hend : joined '/' (v ++ [c]) = (joined '/' v ++ ['/']) ++ c := by simp
    rw [hend, List.getLast?_append_of_ne_nil _ hc] at hlast
    exact h.of_append.2.clean c (List.mem_singleton_self c) (List.mem_of_getLast? hlast)

/-! ## Both orders of the paths -/

theorem commonLength_comm (a b : Path) : commonLength a b = commonLength b a := by
  induction a generalizing b with
  | nil => cases b <;> rfl
  | cons x a ih =>
    cases b with
    | nil => rfl
    | cons y b => simp only [commonLength, ih b, eq_comm (a := x)]

theorem take_commonLength (a b : Path) :
    a.take (commonLength a b) = b.take (commonLength a b) := by
  obtain ⟨u, x, y, rfl, rfl, hl, -⟩ := commonLength_spec a b
  rw [hl, List.take_left, List.take_left]

theorem getCommonParent_comm (a b : Path) : getCommonParent a b = getCommonParent b a := by
  simp only [getCommonParent, commonLength_comm b a, take_commonLength a b,
    Bool.and_comm (endsAt b _)]

/-! ## The components in common -/

theorem commonLength_append_left (s p q : Path) :
    commonLength (s ++ p) (s ++ q) = s.length + commonLength p q := by
  induction s with
  | nil => simp
  | cons x s ih =>
    rw [List.cons_append, List.cons_append, commonLength, if_pos rfl, ih, List.length_cons]
    omega

/-- Behind different components nothing is left in common. -/
theorem getCommonParent_of_ne (hv : Normalised (top ++ c :: v)) (hw : Normalised (top ++ d :: w))
    (hne : c ≠ d) : getCommonParent (joined '/' (top ++ c :: v)) (joined '/' (top ++ d :: w)) =
      joined '/' top := by
  obtain ⟨u, x, y, hx, hy, hl, -⟩ := commonLength_spec (c ++ joined '/' v) (d ++ joined '/' w)
  obtain ⟨hu, hends⟩ := common_of_ne hv.of_append.2.clean.head hw.of_append.2.clean.head hne hx hy
  let s := joined '/' top ++ '/' :: u
  have hleft : joined '/' (top ++ c :: v) = s ++ x := by simp [s, hx]
  have hright : joined '/' (top ++ d :: w) = s ++ y := by simp [s, hy]
  have hlen : commonLength (s ++ x) (s ++ y) = s.length := by
    have hslash : ∀ z, s ++ z = (joined '/' top ++ ['/']) ++ (u ++ z) := by simp [s]
    rw [hslash, hslash, commonLength_append_left, ← hx, ← hy, hl]
    simp [s]
    omega
  have hbound : (endsAt (s ++ x) s.length && endsAt (s ++ y) s.length) = false := by
    rw [← Bool.not_eq_true, Bool.and_eq_true, endsAt_append, endsAt_append]
    exact hends
  have hpos : s.length ≠ 0 := by simp [s]
  rw [hleft, hright, getCommonParent, hlen, if_neg hpos, hbound, if_neg Bool.false_ne_true,
    List.take_left, findLastOf_append hu]
  simp only [s, List.take_left]
  exact hv.of_append.1.popSlash_joined

/-- Two lists go on with different items behind what they have in common. -/
theorem exists_common (v w : List (List Char)) : ∃ top v' w', v = top ++ v' ∧ w = top ++ w' ∧
    ∀ c, v'.head? = some c → w'.head? ≠ some c := by
  induction v generalizing w with
  | nil => exact ⟨[], [], w, rfl, rfl, nofun⟩
  | cons c v ih =>
    cases w with
    | nil => exact ⟨[], c :: v, [], rfl, rfl, nofun⟩
    | cons d w =>
      by_cases h : c = d
      · subst h
        obtain ⟨top, v', w', rfl, rfl, hne⟩ := ih w
        exact ⟨c :: top, v', w', rfl, rfl, hne⟩
      · refine ⟨[], c :: v, d :: w, rfl, rfl, ?_⟩
        rintro _ ⟨⟩ he
        exact h (Option.some.inj he).symm

theorem deepestCommon_append {v' w' : List (List Char)}
    (hne : ∀ c, v'.head? = some c → w'.head? ≠ some c) :
    DeepestCommon (top ++ v') (top ++ w') top where
  left := List.prefix_append top v'
  right := List.prefix_append top w'
  deepest other hv hw := by
    rcases List.prefix_or_prefix_of_prefix hv (List.prefix_append top v') with h | ⟨rest, rfl⟩
    · exact h
    · -- a longer one would go on with the same component
      rw [List.prefix_append_right_inj] at hv hw
      cases rest with
      | nil => simp
      | cons c rest =>
        obtain ⟨_, rfl⟩ := hv
        obtain ⟨_, rfl⟩ := hw
        exact absurd rfl (hne c rfl)

/-- `get_common_parent` of two absolute normalised paths is the deepest path above or equal to both,
the empty string standing for the root directory, in either order of the paths. -/
theorem common_parent_deepest (v w : List (List Char)) (hv : Normalised v) (hw : Normalised w) :
    (∃ top, DeepestCommon v w top ∧
      getCommonParent (joined '/' v) (joined '/' w) = joined '/' top) ∧
    getCommonParent (joined '/' v) (joined '/' w) =
      getCommonParent (joined '/' w) (joined '/' v) := by
  refine ⟨?_, getCommonParent_comm _ _⟩
  obtain ⟨top, v', w', rfl, rfl, hne⟩ := exists_common v w
  refine ⟨top, deepestCommon_append hne, ?_⟩
  have htop := hv.of_append.1.popSlash_joined
  have hhead : ∀ z : List (List Char), joined '/' z = [] ∨ (joined '/' z).head? = some '/' := by
    intro z
    cases z with
    | nil => exact .inl rfl
    | cons c z => exact .inr rfl
  cases v' with
  | nil =>
    rw [List.append_nil, joined_append]
    exact getCommonParent_append htop (hhead w')
  | cons c v' =>
    cases w' with
    | nil =>
      rw [List.append_nil, joined_append, getCommonParent_comm]
      exact getCommonParent_append htop (hhead (c :: v'))
    | cons d w' => exact getCommonParent_of_ne hv hw fun he => hne c rfl (he ▸ rfl)

/-- The common parent of "/abc/cc" and "/abc/cccf" is "/abc". -/
theorem common_parent_abc :
    ∃ top, DeepestCommon [['a', 'b', 'c'], ['c', 'c']] [['a', 'b', 'c'], ['c', 'c', 'c', 'f']] top ∧
      getCommonParent "/abc/cc".toList "/abc/cccf".toList = joined '/' top ∧
      joined '/' top = "/abc".toList := by
  obtain ⟨⟨top, htop, hparent⟩, -⟩ := common_parent_deepest [['a', 'b', 'c'], ['c', 'c']]
    [['a', 'b', 'c'], ['c', 'c', 'c', 'f']] ⟨by unfold Clean; simp, by simp⟩
    ⟨by unfold Clean; simp, by simp⟩
  exact ⟨top, htop, hparent, hparent.symm.trans (by decide)⟩

end ScanDaemon

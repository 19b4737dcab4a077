import ScanDaemon.Daemon.Router

/-! # The pages of the paginated handlers

`parse_int` clamps what it reads to `INT_MAX`, so that the product of a page and
a limit need not be an `int`. A page has the rows of its own exactly if the
offset is one.
-/

namespace ScanDaemon

namespace HttpServer

open ScanDiff

variable {α : Type} {queries str : List Char} {page page' limit i : ℤ} {rows : List α}

/-- The rows with the indices from `(page - 1) * limit` to `page * limit - 1`. -/
def window (page limit : ℤ) (rows : List α) : List α :=
  (rows.drop ((page - 1) * limit).toNat).take limit.toNat

/-- The handlers serve a page of their full results: `LIMIT` and `OFFSET` cut out its own rows, and
no earlier page has one of them. -/
structure ServesPage (queries : List Char) (page limit : ℤ) : Prop where
  scansHistory : ∀ (env : Env) (all : List ScanTaskRow),
    (∀ limit offset, env.getAll limit offset = limited limit offset all) →
    responseScansHistory env queries =
      .write 200 "application/json" (scansHistory (window page limit all))
  scanDiffDetail : ∀ (env : Env) (all : ScanId → ℤ → List (ScanRow × ℕ)) (id : ScanId),
    (∀ id filter limit offset,
      env.getScanDiffDetail id filter limit offset = limited limit offset (all id filter)) →
    (getQueryValue queries "id".toList).bind parseId = some id → exported env id = true →
    responseScanDiffDetail env queries =
      .write 200 "application/json" (scanDiffDetail (window page limit (all id
        (stateFilter (String.ofList ((getQueryValue queries "state".toList).getD "ALL".toList))))))
  indexSearchDetail : ∀ (env : Env) (all : List Char → List IndexRow) (keyword : List Char),
    (∀ keyword limit offset,
      env.search keyword limit offset = limited limit offset (all keyword)) →
    getQueryValue queries "search".toList = some keyword →
    responseIndexSearchDetail env queries =
      .write 200 "application/json" (indexSearchDetail (window page limit (all keyword)))
  disjoint : ∀ (α : Type) (rows : List α) (page' : ℤ), rows.Nodup → 1 ≤ page' → page' < page →
    (limited limit (pageOffset page' limit) rows).Disjoint
      (limited limit (pageOffset page limit) rows)

/-! ## The numbers that are read -/

theorem parseInt_range (h : parseInt str = some i) : 1 ≤ i ∧ i ≤ intMax := by
  have hmax : (1 : ℤ) ≤ intMax := by decide
  dsimp only [parseInt] at h
  split_ifs at h with hpos hmore
  · obtain rfl := Option.some.inj h
    exact ⟨hmax, le_rfl⟩
  · obtain rfl := Option.some.inj h
    exact ⟨by omega, not_lt.mp hmore⟩

theorem pageAndLimit_range (h : pageAndLimit queries = some (page, limit)) :
    (1 ≤ page ∧ page ≤ intMax) ∧ 1 ≤ limit ∧ limit ≤ intMax := by
  obtain ⟨p, hp, h⟩ := Option.bind_eq_some_iff.mp h
  obtain ⟨l, hl, h⟩ := Option.bind_eq_some_iff.mp h
  cases h
  obtain ⟨_, -, hp⟩ := Option.bind_eq_some_iff.mp hp
  obtain ⟨_, -, hl⟩ := Option.bind_eq_some_iff.mp hl
  exact ⟨parseInt_range hp, parseInt_range hl⟩

/-! ## The offset -/

theorem offset_nonneg (hp : 1 ≤ page) (hl : 1 ≤ limit) : 0 ≤ (page - 1) * limit :=
  Int.mul_nonneg (by omega) (by omega)

/-- The offset is exact if it is an `int`. -/
theorem pageOffset_eq (hp : 1 ≤ page) (hl : 1 ≤ limit) (h : (page - 1) * limit ≤ intMax) :
    pageOffset page limit = (page - 1) * limit := by
  have hnonneg := offset_nonneg hp hl
  have hmax : intMax < 2 ^ 31 := by decide
  unfold pageOffset int32
  rw [Int.bmod_def]
  omega

/-- The offset never exceeds an `int`. -/
theorem pageOffset_le : pageOffset page limit ≤ intMax := by
  have hmax : intMax = 2 ^ 31 - 1 := rfl
  unfold pageOffset int32
  rw [Int.bmod_def]
  split_ifs <;> omega

theorem limited_eq_window (hp : 1 ≤ page) (hl : 1 ≤ limit) (h : (page - 1) * limit ≤ intMax) :
    limited limit (pageOffset page limit) rows = window page limit rows := by
  rw [limited, if_neg (by omega), pageOffset_eq hp hl h, window]

/-- The pages have rows of their own. -/
theorem disjoint_windows (hl : 1 ≤ limit) (hp' : 1 ≤ page') (hlt : page' < page)
    (hnodup : rows.Nodup) : (window page' limit rows).Disjoint (window page limit rows) := by
  have hnonneg := offset_nonneg hp' hl
  have hnext : page' * limit ≤ (page - 1) * limit :=
    mul_le_mul_of_nonneg_right (by omega) (by omega)
  have hle : ((page' - 1) * limit).toNat + limit.toNat ≤ ((page - 1) * limit).toNat := by
    have hsum : (page' - 1) * limit + limit = page' * limit := by ring
    omega
  -- the earlier page ends where the later one begins, or in front of it
  apply List.disjoint_of_subset_left _ (List.disjoint_of_subset_right (List.take_subset _ _)
    (List.disjoint_take_drop hnodup hle))
  rw [window, List.take_drop]
  exact List.drop_subset _ _

/-- A daemon whose table of scans has the given rows. -/
def historyEnv (all : List ScanTaskRow) : Env :=
  { acceptingEnv with getAll := fun limit offset => limited limit offset all }

/-- Beyond the range of an `int` the last one of some rows is shown on a page that it is not on. -/
theorem window_exceeded (hl : 1 ≤ limit) (h : intMax < (page - 1) * limit) (row : α) :
    ∃ rows : List α, limited limit (pageOffset page limit) rows = [row] ∧
      window page limit rows = [] := by
  have hle : pageOffset page limit ≤ intMax := pageOffset_le
  have hnonneg : 0 ≤ intMax := by decide
  refine ⟨List.replicate ((pageOffset page limit).toNat + 1) row, ?_, ?_⟩
  · rw [limited, if_neg (by omega), List.drop_replicate, Nat.add_sub_cancel_left,
      List.replicate_one, List.take_of_length_le]
    rw [List.length_singleton]
    omega
  · rw [window, List.drop_eq_nil_of_le, List.take_nil]
    rw [List.length_replicate]
    omega

/-- The offset of a page is exact, and the handlers serve the page, exactly if the offset is an
`int`. -/
theorem serves_page_iff (queries : List Char) (page limit : ℤ)
    (h : pageAndLimit queries = some (page, limit)) :
    (pageOffset page limit = (page - 1) * limit ↔ (page - 1) * limit ≤ intMax) ∧
      (ServesPage queries page limit ↔ (page - 1) * limit ≤ intMax) := by
  obtain ⟨⟨hp, -⟩, hl, -⟩ := pageAndLimit_range h
  refine ⟨⟨fun he => he ▸ pageOffset_le, pageOffset_eq hp hl⟩, fun hserves => ?_, fun hmax => ?_⟩
  · by_contra hmore
    let row : ScanTaskRow := ⟨1, 0, 0, ['/'], .done⟩
    obtain ⟨rows, hshown, hown⟩ := window_exceeded hl (not_le.mp hmore) row
    have hbody := hserves.scansHistory (historyEnv rows) rows fun _ _ => rfl
    rw [responseScansHistory, h, hown] at hbody
    simp only [historyEnv, hshown] at hbody
    have hne : scansHistory [row] ≠ scansHistory [] := by decide +kernel
    injection hbody with _ hwritten
    injection hwritten with hwritten
    injection hwritten with _ _ hbody
    exact hne hbody
  · constructor
    · intro env all henv
      rw [responseScansHistory, h]
      simp only [henv, limited_eq_window hp hl hmax]
    · intro env all id henv hid hexp
      rw [responseScanDiffDetail, h, hid]
      simp only [hexp, henv, limited_eq_window hp hl hmax, Bool.not_true, Bool.false_eq_true,
        if_false]
    · intro env all keyword henv hkeyword
      rw [responseIndexSearchDetail, h, hkeyword]
      simp only [henv, limited_eq_window hp hl hmax]
    · intro α rows page' hnodup hp' hlt
      have hmax' : (page' - 1) * limit ≤ intMax :=
        (mul_le_mul_of_nonneg_right (by omega) (by omega)).trans hmax
      rw [limited_eq_window hp hl hmax, limited_eq_window hp' hl hmax']
      exact disjoint_windows hl hp' hlt hnodup

/-- Two pages with a limit of three rows. -/
theorem serves_page_small : ServesPage "page=2&limit=3".toList 2 3 :=
  (serves_page_iff "page=2&limit=3".toList 2 3 (by decide +kernel)).2.mpr (by decide)

/-- The product for page 65537 and limit 65536 is a multiple of 2³², and the page repeats the
first one. -/
theorem serves_page_wrapped :
    pageAndLimit "page=65537&limit=65536".toList = some (65537, 65536) ∧
      pageOffset 65537 65536 = 0 ∧
      (∀ rows : List ScanTaskRow, limited 65536 (pageOffset 65537 65536) rows =
        limited 65536 (pageOffset 1 65536) rows) ∧
      ¬ ServesPage "page=65537&limit=65536".toList 65537 65536 := by
  have hread : pageAndLimit "page=65537&limit=65536".toList = some (65537, 65536) := by
    decide +kernel
  refine ⟨hread, by decide, fun _ => rfl, fun hserves => ?_⟩
  have hshared := hserves.disjoint ℕ [0] 1 (List.nodup_singleton 0) le_rfl (by decide)
  exact hshared (a := 0) (by decide) (by decide)

end HttpServer

end ScanDaemon

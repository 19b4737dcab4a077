import ScanDaemon.Daemon.DiffPages
import ScanDaemon.Database.Like
import ScanDaemon.Database.TopRoot

/-! # The search of the index

`IndexReader::search` puts the keyword between two percent signs. The wildcards
of `LIKE` in the keyword are not escaped, and the pattern is bound as a C string,
so that a null byte ends it. Keyword and paths are valid UTF-8, read as characters.
-/

namespace ScanDaemon

open Relational Like

namespace IndexReader

open ScanDiff (limited flatMap_pages)

/-- A text that is bound with its `c_str()`. -/
def cString (s : List Char) : List Char := s.takeWhile (· ≠ '\x00')

/-- The pattern that is bound for a keyword. -/
def searchPattern (normalized : List Char) : List Char := cString ('%' :: (normalized ++ ['%']))

/-- The paths that `stmt_search_` selects. -/
def searched (current : Table Path CurrentRow) (path : List Char) : Finset Path :=
  let normalized := popSlash path
  if normalized = [] then ∅ else current.select fun p _ => like (searchPattern normalized) p

/-- The order of the rows, which is the same for every page. -/
structure SearchOrder (current : Table Path CurrentRow) (path : List Char) (order : List Path) :
    Prop where
  nodup : order.Nodup
  mem : ∀ p, p ∈ order ↔ p ∈ searched current path

/-- What the callback is given for a row. -/
def searchRow (p : Path) (r : CurrentRow) : IndexRow :=
  ⟨r.mtime, uint64 r.msize, r.errMsg, p, r.nodeType, r.state⟩

def search (current : Table Path CurrentRow) (order : List Path) (limit offset : ℤ) :
    List IndexRow :=
  (limited limit offset order).filterMap fun p => (current.find p).map (searchRow p)

/-- Read page after page until one is empty, the search delivers the rows in whose path the keyword
occurs, each once. -/
def Finds (current : Table Path CurrentRow) (keyword : List Char) : Prop :=
  ∀ order, SearchOrder current keyword order → ∀ limit pages : ℕ, 0 < limit →
    search current order limit (pages * limit : ℕ) = [] →
    let rows := (List.range pages).flatMap fun i => search current order limit (i * limit : ℕ)
    (rows.map IndexRow.path).Nodup ∧ ∀ row, row ∈ rows ↔
      ∃ r, current.find row.path = some r ∧ row = searchRow row.path r ∧ Occurs keyword row.path

variable {current : Table Path CurrentRow} {keyword : List Char} {order : List Path} {p : Path}
  {limit offset pages : ℕ}

/-! ## The pages -/

theorem mem_searched : p ∈ searched current keyword ↔ p ∈ current.keys ∧ popSlash keyword ≠ [] ∧
    like (searchPattern (popSlash keyword)) p = true := by
  dsimp only [searched]
  split_ifs with hn
  · simp [hn]
  · rw [Table.mem_select, Table.mem_keys, Option.isSome_iff_exists]
    simp [hn]

theorem search_page : search current order limit offset =
    ((order.drop offset).take limit).filterMap fun p => (current.find p).map (searchRow p) := by
  rw [search, limited, if_neg (by omega), Int.toNat_natCast, Int.toNat_natCast]

theorem SearchOrder.exists_row (h : SearchOrder current keyword order) (hp : p ∈ order) :
    ∃ r, current.find p = some r := by
  rw [h.mem, mem_searched, Table.mem_keys, Option.isSome_iff_exists] at hp
  exact hp.1

/-- An empty page lies behind the last row. -/
theorem SearchOrder.length_le (h : SearchOrder current keyword order) (hlimit : 0 < limit)
    (hend : search current order limit offset = []) : order.length ≤ offset := by
  rw [search_page, List.filterMap_eq_nil_iff] at hend
  by_contra hlt
  have hpage : (order.drop offset).take limit ≠ [] := by
    rw [Ne, List.take_eq_nil_iff, List.drop_eq_nil_iff]
    omega
  obtain ⟨p, hp⟩ := List.exists_mem_of_ne_nil _ hpage
  obtain ⟨r, hr⟩ := h.exists_row (List.mem_of_mem_drop (List.mem_of_mem_take hp))
  have hnone := hend p hp
  rw [hr] at hnone
  cases hnone

/-- The pages together are the rows that are selected. -/
theorem SearchOrder.pages_eq (h : SearchOrder current keyword order) (hlimit : 0 < limit)
    (hend : search current order limit (pages * limit : ℕ) = []) :
    ((List.range pages).flatMap fun i => search current order limit (i * limit : ℕ)) =
      order.filterMap fun p => (current.find p).map (searchRow p) := by
  have hlen := h.length_le hlimit hend
  simp only [search_page]
  rw [← List.filterMap_flatMap, flatMap_pages, List.take_of_length_le hlen]

theorem SearchOrder.paths_eq (h : SearchOrder current keyword order) :
    (order.filterMap fun p => (current.find p).map (searchRow p)).map IndexRow.path = order := by
  rw [List.map_filterMap]
  calc order.filterMap (fun p => ((current.find p).map (searchRow p)).map IndexRow.path)
      = order.filterMap some := by
        apply List.filterMap_congr
        intro p hp
        obtain ⟨r, hr⟩ := h.exists_row hp
        rw [hr]
        rfl
    _ = order := List.filterMap_some

/-- The search is right exactly if it selects the rows in which the keyword occurs. -/
theorem finds_iff : Finds current keyword ↔
    ∀ p ∈ current.keys, p ∈ searched current keyword ↔ Occurs keyword p := by
  constructor
  · intro h p hp
    let order := (searched current keyword).toList
    have horder : SearchOrder current keyword order :=
      ⟨Finset.nodup_toList _, fun p => Finset.mem_toList⟩
    have hend : search current order (1 : ℕ) (order.length * 1 : ℕ) = [] := by
      rw [search_page, List.drop_eq_nil_of_le (by omega)]
      rfl
    obtain ⟨-, hrows⟩ := h order horder 1 order.length Nat.one_pos hend
    rw [horder.pages_eq Nat.one_pos hend] at hrows
    rw [Table.mem_keys, Option.isSome_iff_exists] at hp
    obtain ⟨r, hr⟩ := hp
    have hrow := hrows (searchRow p r)
    rw [List.mem_filterMap] at hrow
    rw [← Finset.mem_toList]
    constructor
    · intro hp
      exact (hrow.mp ⟨p, hp, by rw [hr]; rfl⟩).choose_spec.2.2
    · intro hoccurs
      obtain ⟨q, hq, hrow⟩ := hrow.mpr ⟨r, hr, rfl, hoccurs⟩
      obtain ⟨r', -, hrow⟩ := Option.map_eq_some_iff.mp hrow
      obtain rfl : q = p := congrArg IndexRow.path hrow
      exact hq
  · intro h order horder limit pages hlimit hend rows
    have hrows : rows = _ := horder.pages_eq hlimit hend
    rw [hrows, horder.paths_eq]
    refine ⟨horder.nodup, fun row => ?_⟩
    rw [List.mem_filterMap]
    constructor
    · rintro ⟨p, hp, hrow⟩
      obtain ⟨r, hr, rfl⟩ := Option.map_eq_some_iff.mp hrow
      have hkey : p ∈ current.keys := Table.mem_keys_of_find hr
      exact ⟨r, hr, rfl, (h p hkey).mp ((horder.mem p).mp hp)⟩
    · rintro ⟨r, hr, hrow, hoccurs⟩
      have hkey : row.path ∈ current.keys := Table.mem_keys_of_find hr
      refine ⟨row.path, (horder.mem _).mpr ((h _ hkey).mpr hoccurs), ?_⟩
      rw [hr, Option.map_some, ← hrow]

/-! ## The keyword -/

/-- A null byte ends a C string. -/
theorem cString_append {a b : List Char} (ha : '\x00' ∉ a) : cString (a ++ '\x00' :: b) = a := by
  have hkept : ∀ c ∈ a, decide (c ≠ '\x00') = true := fun c hc =>
    decide_eq_true (ne_of_mem_of_not_mem hc ha)
  rw [cString, List.takeWhile_append_of_pos hkept]
  simp

theorem searchPattern_eq (h : '\x00' ∉ keyword) :
    searchPattern keyword = '%' :: (keyword ++ ['%']) := by
  rw [searchPattern, cString, List.takeWhile_eq_self_iff]
  intro c hc
  have hne : c ≠ '\x00' := by
    rintro rfl
    simp [h] at hc
  simpa using hne

/-- The characters that change what is searched for: the wildcards, the end of a C string, and the
code points that `LIKE` does not tell apart. -/
def IsSpecial (c : Char) : Prop := c = '%' ∨ c = '_' ∨ c = '\x00' ∨ IsReplaced c

/-- The pattern begins with the keyword up to its first null byte, and what follows matches the
empty text. -/
theorem searchPattern_cases (keyword : List Char) : ∃ before r, (∀ c ∈ before, c ∈ keyword) ∧
    '\x00' ∉ before ∧ searchPattern keyword = '%' :: (before ++ r) ∧ like r [] = true := by
  by_cases hmem : '\x00' ∈ keyword
  · obtain ⟨a, b, rfl, ha⟩ := List.eq_append_cons_of_mem hmem
    refine ⟨a, [], fun c hc => List.mem_append_left _ hc, ha, ?_, rfl⟩
    have hsplit : '%' :: (a ++ '\x00' :: b ++ ['%']) = ('%' :: a) ++ '\x00' :: (b ++ ['%']) :=
      by simp
    rw [searchPattern, hsplit, cString_append (by simp [ha]), List.append_nil]
  · exact ⟨keyword, ['%'], fun _ hc => hc, hmem, searchPattern_eq hmem, like_everything⟩

/-- A pattern with a special character matches a path in which its keyword does not occur. -/
theorem exists_wrong {c : Char} (hc : c ∈ keyword) (hspecial : IsSpecial c) :
    ∃ p, '\x00' ∉ p ∧ like (searchPattern keyword) p = true ∧ ¬Occurs keyword p := by
  obtain ⟨before, r, hbefore, hnull, hpattern, hr⟩ := searchPattern_cases keyword
  -- a character that is read like `c` is no `c`
  obtain ⟨y, hy, hyc⟩ : ∃ y, IsReplaced y ∧ y ≠ c := by
    by_cases hc : c = '\uFFFD'
    · exact ⟨'\uFFFE', by decide, by rw [hc]; decide⟩
    · exact ⟨'\uFFFD', by decide, Ne.symm hc⟩
  have hsample : '\x00' ∉ sample y before := by
    intro h
    rcases (mem_sample h).1 with h | h | h
    · exact absurd h (by decide)
    · exact absurd (h ▸ hy) (by decide)
    · exact hnull h
  refine ⟨sample y before, hsample, ?_, fun hoccurs => ?_⟩
  · rw [hpattern]
    refine like_percent.mpr ⟨sample y before, List.suffix_rfl, ?_⟩
    simpa using like_sample (q := before) hy hr
  · have halpha : c.isAlpha = false := by
      rcases hspecial with rfl | rfl | rfl | rfl | rfl | rfl <;> decide
    have hmem := hoccurs.mem hc halpha
    obtain ⟨h₁, h₂, h₃⟩ := (mem_sample hmem).2.resolve_left hyc.symm
    rcases hspecial with rfl | rfl | rfl | hread
    · exact h₁ rfl
    · exact h₂ rfl
    · exact hsample hmem
    · exact h₃ hread

theorem popSlash_eq (h : keyword.getLast? ≠ some '/') : popSlash keyword = keyword :=
  if_neg fun hand => h hand.2

/-- The search finds the rows in whose path the keyword occurs, in an index exactly if its pattern
matches no other path, and in every index exactly if the keyword has no special character. The texts
are valid UTF-8. -/
theorem search_finds_iff (keyword : List Char) (hne : keyword ≠ [])
    (hlast : keyword.getLast? ≠ some '/') :
    (∀ current : Table Path CurrentRow, (∀ p ∈ current.keys, '\x00' ∉ p) →
      (Finds current keyword ↔
        ∀ p ∈ current.keys, like (searchPattern keyword) p = true → Occurs keyword p)) ∧
    ((∀ current, Finds current keyword) ↔ ∀ c ∈ keyword, ¬IsSpecial c) := by
  have hselected : ∀ (current : Table Path CurrentRow), ∀ p ∈ current.keys,
      p ∈ searched current keyword ↔ like (searchPattern keyword) p = true := by
    intro current p hp
    rw [mem_searched, popSlash_eq hlast]
    exact ⟨fun h => h.2.2, fun h => ⟨hp, hne, h⟩⟩
  constructor
  · intro current hnull
    rw [finds_iff]
    refine forall₂_congr fun p hp => ?_
    rw [hselected current p hp]
    refine ⟨fun h => h.mp, fun h => ⟨h, fun hoccurs => ?_⟩⟩
    -- a keyword with a null byte occurs in no path
    have hmem : '\x00' ∉ keyword := fun hmem => hnull p hp (hoccurs.mem hmem (by decide))
    rw [searchPattern_eq hmem]
    exact like_of_occurs hoccurs
  · constructor
    · intro h c hc hspecial
      obtain ⟨p, -, hlike, hnot⟩ := exists_wrong hc hspecial
      have hp : p ∈ (indexAt [(p, .file)]).keys :=
        mem_indexAt.mpr ⟨_, List.mem_singleton_self _, rfl⟩
      exact hnot ((finds_iff.mp (h _) p hp).mp ((hselected _ p hp).mpr hlike))
    · intro hplain current
      rw [finds_iff]
      intro p hp
      have hnull : '\x00' ∉ keyword := fun hmem => hplain _ hmem (.inr (.inr (.inl rfl)))
      rw [hselected current p hp, searchPattern_eq hnull]
      exact like_occurs_iff fun c hc =>
        ⟨fun he => hplain c hc (.inl he), fun he => hplain c hc (.inr (.inl he)),
          fun he => hplain c hc (.inr (.inr (.inr he)))⟩

/-- A keyword of letters finds the paths that contain it in another case. -/
theorem search_finds_letters :
    Finds (indexAt [("/my docs".toList, .file), ("/a".toList, .file)]) "Docs".toList := by
  refine (search_finds_iff "Docs".toList (by decide) (by decide)).2.mpr ?_ _
  intro c hc
  fin_cases hc <;> rintro (h | h | h | h) <;> exact absurd h (by decide)

/-- The keyword "a_b" finds the file "/axb". -/
theorem search_finds_other :
    let current := indexAt [("/a_b".toList, .file), ("/axb".toList, .file)]
    "/axb".toList ∈ searched current "a_b".toList ∧ ¬Occurs "a_b".toList "/axb".toList ∧
      ¬Finds current "a_b".toList := by
  intro current
  have hkey : "/axb".toList ∈ current.keys := mem_indexAt.mpr ⟨("/axb".toList, .file), by simp, rfl⟩
  have hfound : "/axb".toList ∈ searched current "a_b".toList :=
    mem_searched.mpr ⟨hkey, by decide, by decide⟩
  have hnot : ¬Occurs "a_b".toList "/axb".toList := by decide
  exact ⟨hfound, hnot, fun h => hnot ((finds_iff.mp h _ hkey).mp hfound)⟩

end IndexReader

end ScanDaemon

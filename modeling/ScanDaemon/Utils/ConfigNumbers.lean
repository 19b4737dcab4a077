import ScanDaemon.Utils.Config

/-! # The numbers of the configuration file

A number is read by `stoi` or `stoull` before it is clamped. What these do not
read as it stands is refused, so that the member keeps its value, or comes out
as another number: `stoull` takes a minus sign and wraps.
-/

namespace ScanDaemon

namespace Config

open HttpServer (isSpace leadingDigits intMax)

/-- The members that numbers are stored in. -/
inductive Field
  | userDownloadSec | serverPort | fdQueueMaxSize | fdPoolNumThreads | queueMaxSize
  | loggerQueueMaxSize | queSize | scanQueueMaxSize | scanPoolNumThreads | batchSize
  deriving DecidableEq, Repr

def Field.view (f : Field) (d : ConfigData) : ℕ :=
  match f with
  | .userDownloadSec => d.daemon.userDownloadSec
  | .serverPort => d.httpserver.serverPort
  | .fdQueueMaxSize => d.httpserver.fdQueueMaxSize
  | .fdPoolNumThreads => d.httpserver.fdPoolNumThreads
  | .queueMaxSize => d.scheduler.queueMaxSize
  | .loggerQueueMaxSize => d.asynclogger.queueMaxSize
  | .queSize => d.exportmanager.queSize
  | .scanQueueMaxSize => d.manager.scanQueueMaxSize
  | .scanPoolNumThreads => d.manager.scanPoolNumThreads
  | .batchSize => d.db.batchSize

/-- The members that a key sets. -/
def Number.fields : Number → List Field
  | .userDownloadSec => [.userDownloadSec]
  | .serverPort => [.serverPort]
  | .fdQueueMaxSize => [.fdQueueMaxSize]
  | .fdPoolNumThreads => [.fdPoolNumThreads]
  | .queueMaxSize => [.queueMaxSize]
  | .loggerQueueMaxSize => [.loggerQueueMaxSize]
  | .queSize => [.queSize]
  | .scanQueueMaxSize => [.scanQueueMaxSize]
  | .scanPoolNumThreads => [.scanPoolNumThreads]
  | .batchSize => [.batchSize]
  | .numThreads => [.scanPoolNumThreads, .fdPoolNumThreads]
  | .maxSize => [.scanQueueMaxSize, .fdQueueMaxSize]

/-- The setting sets one of the members that `n` sets. -/
def Setting.clashes (n : Number) : Setting → Bool
  | .number m => m.fields.any fun f => f ∈ n.fields
  | _ => false

/-- The value of some decimal digits. -/
def decimal (digits : List Char) : ℕ :=
  digits.foldl (fun n c => 10 * n + (c.toNat - '0'.toNat)) 0

/-- A decimal integer literal and its value. -/
inductive Literal : List Char → ℤ → Prop
  | plain {digits : List Char} (ne : digits ≠ []) (digit : digits.all Char.isDigit = true) :
      Literal digits (decimal digits)
  | plus {digits : List Char} (ne : digits ≠ []) (digit : digits.all Char.isDigit = true) :
      Literal ('+' :: digits) (decimal digits)
  | minus {digits : List Char} (ne : digits ≠ []) (digit : digits.all Char.isDigit = true) :
      Literal ('-' :: digits) (-decimal digits)

/-- The number clamped to the range of the type. -/
def Number.clamped (n : Number) (v : ℤ) : ℕ :=
  if v < 0 then 0 else if n.max < v then n.max else v.toNat

/-- The numbers that the key's conversion reads as they stand. -/
def Number.Reads (n : Number) (v : ℤ) : Prop :=
  match n with
  | .userDownloadSec | .serverPort => -2 ^ 31 ≤ v ∧ v ≤ 2 ^ 31 - 1
  | _ => 0 ≤ v ∧ v ≤ 2 ^ 64 - 1

/-- The numbers that the key's conversion throws an exception on. -/
def Number.Refuses (n : Number) (v : ℤ) : Prop :=
  match n with
  | .userDownloadSec | .serverPort => v < -2 ^ 31 ∨ 2 ^ 31 - 1 < v
  | _ => 2 ^ 64 - 1 < v.natAbs

variable {n m : Number} {f : Field} {v : ℤ} {lit digits sec key : List Char} {d d' : ConfigData}
  {x : ℕ}

/-! ## The members -/

theorem view_store : f.view (n.store x d) = if f ∈ n.fields then x else f.view d := by
  cases n <;> cases f <;> rfl

theorem view_assign_number {g : Field} (hg : g ∈ n.fields) (s : Setting) (value : List Char)
    (d d' : ConfigData) (hs : s.clashes n = false) (h : assign value d s = some d') :
    g.view d' = g.view d := by
  obtain ⟨m, v, rfl, rfl⟩ | ⟨t, -, rfl⟩ | ⟨v, -, rfl⟩ | ⟨b, rfl⟩ := assign_cases h
  · rw [view_store, if_neg]
    intro hm
    have hclash : (Setting.number m).clashes n = true :=
      List.any_eq_true.mpr ⟨g, hm, decide_eq_true hg⟩
    rw [hclash] at hs
    cases hs
  · cases t <;> cases g <;> rfl
  · cases g <;> rfl
  · cases g <;> rfl

/-- The defaults lie strictly inside the range of the type. -/
theorem initial_inside (h : f ∈ n.fields) :
    0 < f.view .initial ∧ f.view .initial < n.max := by
  cases n <;> simp only [Number.fields, List.mem_cons, List.not_mem_nil, or_false] at h
  case numThreads | maxSize => rcases h with rfl | rfl <;> decide
  all_goals subst h; decide

theorem Number.fields_ne_nil (n : Number) : n.fields ≠ [] := by cases n <;> simp [Number.fields]

/-! ## Literals -/

theorem leadingDigits_eq (hd : digits.all Char.isDigit = true) :
    leadingDigits digits = decimal digits := by
  have hself : digits.takeWhile Char.isDigit = digits :=
    List.takeWhile_eq_self_iff.mpr (List.all_eq_true.mp hd)
  rw [leadingDigits, hself, decimal]

theorem readInteger_literal (h : Literal lit v) : readInteger lit = some v := by
  have hself (digits : List Char) (hd : digits.all Char.isDigit = true) :
      digits.takeWhile Char.isDigit = digits :=
    List.takeWhile_eq_self_iff.mpr (List.all_eq_true.mp hd)
  cases h with
  | plain ne hd =>
    obtain ⟨c, digits, rfl⟩ := List.exists_cons_of_ne_nil ne
    have hc : c.isDigit = true := List.all_eq_true.mp hd c List.mem_cons_self
    have hne : ∀ d : Char, d.isDigit = false → c ≠ d := by
      rintro d hd' rfl
      rw [hc] at hd'
      cases hd'
    have hspace : isSpace c = false := by
      simp [isSpace, hne ' ' (by decide), hne '\t' (by decide), hne '\n' (by decide),
        hne '\x0b' (by decide), hne '\x0c' (by decide), hne '\r' (by decide)]
    rw [readInteger, List.dropWhile_cons_of_neg (by simp [hspace])]
    split
    next h => exact absurd (List.cons.inj h).1 (hne '-' (by decide))
    next h => exact absurd (List.cons.inj h).1 (hne '+' (by decide))
    next => simp only [hself _ hd, if_neg ne, leadingDigits_eq hd]
  | plus ne hd =>
    rw [readInteger, List.dropWhile_cons_of_neg (by decide)]
    simp only [hself _ hd, if_neg ne, leadingDigits_eq hd]
  | minus ne hd =>
    rw [readInteger, List.dropWhile_cons_of_neg (by decide)]
    simp only [hself _ hd, if_neg ne, leadingDigits_eq hd, Option.map_some]

/-! ## Conversions -/

theorem stoi_literal (h : Literal lit v) :
    stoi lit = if -2 ^ 31 ≤ v ∧ v ≤ 2 ^ 31 - 1 then some v else none := by
  have hmin : -intMax - 1 = -2 ^ 31 := rfl
  have hmax : intMax = 2 ^ 31 - 1 := rfl
  rw [stoi, readInteger_literal h, hmin, hmax, Option.filter_some]
  simp only [decide_eq_true_eq]

theorem stoull_literal (h : Literal lit v) :
    stoull lit = if v.natAbs ≤ 2 ^ 64 - 1 then some (v % 2 ^ 64) else none := by
  rw [stoull, readInteger_literal h, ullongMax, Option.filter_some]
  simp only [decide_eq_true_eq]
  split_ifs <;> rfl

theorem parse_reads (h : Literal lit v) (hv : n.Reads v) : n.parse lit = some v := by
  have hstoull (hv : 0 ≤ v ∧ v ≤ 2 ^ 64 - 1) : stoull lit = some v := by
    rw [stoull_literal h, if_pos (by omega), Int.emod_eq_of_lt hv.1 (by omega)]
  cases n
  case userDownloadSec | serverPort => exact (stoi_literal h).trans (if_pos hv)
  all_goals exact hstoull hv

theorem parse_refuses (h : Literal lit v) (hv : n.Refuses v) : n.parse lit = none := by
  have hstoi (hv : v < -2 ^ 31 ∨ 2 ^ 31 - 1 < v) : stoi lit = none := by
    rw [stoi_literal h, if_neg (by omega)]
  have hstoull (hv : 2 ^ 64 - 1 < v.natAbs) : stoull lit = none := by
    rw [stoull_literal h, if_neg (by omega)]
  cases n
  case userDownloadSec | serverPort => exact hstoi hv
  all_goals exact hstoull hv

/-- A number that is neither read as it stands nor refused is negative and comes out positive. -/
theorem parse_wraps (h : Literal lit v) (hr : ¬n.Reads v) (hf : ¬n.Refuses v) :
    v < 0 ∧ ∃ w, n.parse lit = some w ∧ 0 < w := by
  have hstoull (hr : ¬(0 ≤ v ∧ v ≤ 2 ^ 64 - 1)) (hf : ¬2 ^ 64 - 1 < v.natAbs) :
      v < 0 ∧ ∃ w, stoull lit = some w ∧ 0 < w := by
    refine ⟨by omega, v % 2 ^ 64, ?_, by omega⟩
    rw [stoull_literal h, if_pos (by omega)]
  cases n
  case userDownloadSec | serverPort =>
    simp only [Number.Reads, Number.Refuses] at hr hf
    omega
  all_goals exact hstoull hr hf

/-- A refused number lies outside of the range of the type. -/
theorem Number.Refuses.clamped (hv : n.Refuses v) : n.clamped v = 0 ∨ n.clamped v = n.max := by
  have hfar : v < 0 ∨ (n.max : ℤ) < v := by
    cases n <;> simp only [Number.Refuses, Number.max] at hv ⊢ <;> omega
  unfold Number.clamped
  split_ifs with hneg hmax
  · exact .inl rfl
  · exact .inr rfl
  · exact absurd hfar (by omega)

theorem clamp_toNat : (clamp v 0 n.max).toNat = n.clamped v := by
  unfold clamp Number.clamped
  split_ifs <;> simp

theorem clamped_pos (h : 0 < v) : 0 < n.clamped v := by
  have hmax : 0 < n.max := by cases n <;> decide
  unfold Number.clamped
  split_ifs <;> omega

theorem view_setValue_number (hkey : setting sec key = some (.number n)) (hf : f ∈ n.fields) :
    f.view (setValue sec key lit d) =
      ((n.parse lit).map fun w => n.clamped w).getD (f.view d) := by
  rw [setValue, hkey, Option.bind_some, assign]
  cases n.parse lit with
  | none => rfl
  | some w =>
    simp only [Option.map_some, Option.getD_some]
    rw [view_store, if_pos hf, clamp_toNat]

/-- What the line of a number leaves in the members. -/
theorem setValue_number_iff (hkey : setting sec key = some (.number n)) (h : Literal lit v) :
    (∀ f ∈ n.fields, f.view (setValue sec key lit d) = n.clamped v) ↔
      n.Reads v ∨ n.Refuses v ∧ ∀ f ∈ n.fields, f.view d = n.clamped v := by
  by_cases hr : n.Reads v
  · refine iff_of_true (fun f hf => ?_) (.inl hr)
    rw [view_setValue_number hkey hf, parse_reads h hr]
    rfl
  by_cases hf : n.Refuses v
  · have hkept : ∀ f ∈ n.fields, f.view (setValue sec key lit d) = f.view d := fun f hm => by
      rw [view_setValue_number hkey hm, parse_refuses h hf]
      rfl
    constructor
    · exact fun hall => .inr ⟨hf, fun f hm => (hkept f hm).symm.trans (hall f hm)⟩
    · rintro (h' | ⟨-, hall⟩)
      · exact absurd h' hr
      · exact fun f hm => (hkept f hm).trans (hall f hm)
  · obtain ⟨hneg, w, hw, hpos⟩ := parse_wraps h hr hf
    refine iff_of_false (fun hall => ?_) (by tauto)
    obtain ⟨f, hm⟩ := List.exists_mem_of_ne_nil _ n.fields_ne_nil
    have hvalue := hall f hm
    rw [view_setValue_number hkey hm, hw] at hvalue
    have hzero : n.clamped v = 0 := if_pos hneg
    exact absurd (hvalue.trans hzero) (clamped_pos hpos).ne'

/-- A line that gives a key the number `v` leaves `v` clamped to the type in its members if and
only if the conversion reads `v` as it stands or, where it throws, this value is there before. In a
file that sets these members in no line before, it is not. -/
theorem load_number_iff (text rawLine key lit : List Char) (before after : List (List Char))
    (n : Number) (v : ℤ) (hlines : getLines text = before ++ rawLine :: after)
    (hline : readLine rawLine = .entry key lit) (hlit : Literal lit v)
    (hkey : setting (sectionAfter [] before) key = some (.number n))
    (hafter : neverSets (Setting.clashes n) (sectionAfter [] before) after = true) :
    (∀ d, (∀ f ∈ n.fields, f.view (load (some text) d).2 = n.clamped v) ↔
      n.Reads v ∨ n.Refuses v ∧
        ∀ f ∈ n.fields, f.view (before.foldl loadLine ([], d)).2 = n.clamped v) ∧
      (neverSets (Setting.clashes n) [] before = true →
        ((∀ f ∈ n.fields, f.view (load (some text) .initial).2 = n.clamped v) ↔ n.Reads v)) := by
  have hload (d : ConfigData) : (∀ f ∈ n.fields, f.view (load (some text) d).2 = n.clamped v) ↔
      n.Reads v ∨ n.Refuses v ∧
        ∀ f ∈ n.fields, f.view (before.foldl loadLine ([], d)).2 = n.clamped v := by
    rw [← setValue_number_iff hkey hlit]
    refine forall₂_congr fun f hf => ?_
    rw [view_load (view_assign_number hf) hlines hline hafter]
  refine ⟨hload, fun hbefore => ?_⟩
  rw [hload .initial, or_iff_left]
  rintro ⟨hrefuses, hall⟩
  obtain ⟨f, hf⟩ := List.exists_mem_of_ne_nil _ n.fields_ne_nil
  have hkept := hall f hf
  rw [foldl_loadLine_keep (view_assign_number hf) hbefore] at hkept
  have hinside := initial_inside hf
  rcases hrefuses.clamped with h | h
  all_goals omega

/-- A port above the range becomes its maximum. -/
theorem load_number_port :
    Field.serverPort.view (load (some "[httpserver]\nserver_port = 70000\n".toList) .initial).2 =
      2 ^ 16 - 1 := by
  have hlit : Literal "70000".toList 70000 := .plain (by decide) (by decide)
  have hport := (load_number_iff "[httpserver]\nserver_port = 70000\n".toList
    "server_port = 70000".toList "server_port".toList _ ["[httpserver]".toList] [] .serverPort 70000
    (by decide +kernel) (by decide +kernel) hlit (by decide +kernel) (by decide +kernel)).2
    (by decide +kernel)
  exact hport.mpr ⟨by decide, by decide⟩ _ List.mem_cons_self

/-- A negative queue size becomes the largest one. -/
theorem load_number_wraps :
    let text := "[scheduler]\nqueue_max_size = -1".toList
    getLines text = ["[scheduler]".toList] ++ ["queue_max_size = -1".toList] ∧
      readLine "queue_max_size = -1".toList = .entry "queue_max_size".toList "-1".toList ∧
      Literal "-1".toList (-1) ∧
      setting (sectionAfter [] ["[scheduler]".toList]) "queue_max_size".toList =
        some (.number .queueMaxSize) ∧
      Number.queueMaxSize.clamped (-1) = 0 ∧
      Field.queueMaxSize.view (load (some text) .initial).2 = 2 ^ 64 - 1 := by
  refine ⟨by decide +kernel, by decide +kernel, ?_, by decide +kernel, by decide, by decide +kernel⟩
  exact @Literal.minus ['1'] (by decide) (by decide)

end Config

end ScanDaemon

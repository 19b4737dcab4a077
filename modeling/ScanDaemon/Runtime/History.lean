import ScanDaemon.Runtime.Steps

/-! # What a step adds to the history

The histories only grow, and only at the program points named here.
-/

namespace ScanDaemon

variable {cfg : Config} {tree : ScanId → FsNode} {σ σ' : Shared cfg} {x : Input} {f : Frame}
  {fs : List Frame}

theorem Step.finished_eq (hs : Step tree σ x f σ' fs) :
    σ'.history.finished = σ.history.finished ∨
      ∃ s t, f = .finish s (.notifyFinished t) ∧
        σ'.history.finished = s :: σ.history.finished := by
  cases hs with
  | finish hs =>
    cases hs with
    | notify_finished => exact .inr ⟨_, _, rfl, rfl⟩
    | _ => exact .inl rfl
  | http hs | run hs | workForever hs | workerJob hs | result hs | main hs =>
    cases hs <;> exact .inl rfl
  | cancelScan => exact .inl rfl

theorem Step.accepted_eq (hs : Step tree σ x f σ' fs) :
    σ'.history.accepted = σ.history.accepted ∨
      ∃ data, f = .run (.push data) ∧
        σ'.history.accepted = data.scanId :: σ.history.accepted := by
  cases hs with
  | run hs =>
    cases hs with
    | accept => exact .inr ⟨_, rfl, rfl⟩
    | _ => exact .inl rfl
  | http hs | finish hs | workForever hs | workerJob hs | result hs | main hs =>
    cases hs <;> exact .inl rfl
  | cancelScan => exact .inl rfl

theorem Step.accepted_subset (hs : Step tree σ x f σ' fs) :
    σ.history.accepted ⊆ σ'.history.accepted := by
  rcases hs.accepted_eq with he | ⟨data, -, he⟩ <;> rw [he]
  · exact List.Subset.refl _
  · exact List.subset_cons_self _ _

theorem Step.count_accepted_le (hs : Step tree σ x f σ' fs) (s : ScanId) :
    σ.history.accepted.count s ≤ σ'.history.accepted.count s := by
  rcases hs.accepted_eq with he | ⟨data, -, he⟩ <;> rw [he]
  exact List.count_le_count_cons

theorem Step.rejected_eq (hs : Step tree σ x f σ' fs) :
    σ'.history.rejected = σ.history.rejected ∨
      ∃ data, f = .run (.push data) ∧ σ.manager.scanPool.jobQueue.stopFlag = true ∧
        σ'.manager.context = σ.manager.context ∧
        σ'.history.rejected = data.scanId :: σ.history.rejected := by
  cases hs with
  | run hs =>
    cases hs with
    | refuse_shutdown hp => exact .inr ⟨_, rfl, hp, rfl, rfl⟩
    | _ => exact .inl rfl
  | http hs | finish hs | workForever hs | workerJob hs | result hs | main hs =>
    cases hs <;> exact .inl rfl
  | cancelScan => exact .inl rfl

theorem Step.stored_eq (hs : Step tree σ x f σ' fs) :
    σ'.history.stored = σ.history.stored ∨
      ∃ id row, f = .finish id (.insertRow row) ∧
        σ'.history.stored = row :: σ.history.stored := by
  cases hs with
  | finish hs =>
    cases hs with
    | insert_row => exact .inr ⟨_, _, rfl, rfl⟩
    | _ => exact .inl rfl
  | http hs | run hs | workForever hs | workerJob hs | result hs | main hs =>
    cases hs <;> exact .inl rfl
  | cancelScan => exact .inl rfl

/-- Where an element of a list stands after another one has been added at the end. -/
theorem append_singleton_eq {α : Type*} {l pre post : List α} {y z : α}
    (h : l ++ [y] = pre ++ z :: post) :
    post = [] ∧ z = y ∧ pre = l ∨ ∃ post', post = post' ++ [y] ∧ l = pre ++ z :: post' := by
  rcases List.eq_nil_or_concat post with rfl | ⟨post', w, rfl⟩
  · obtain ⟨rfl, hy⟩ := List.append_inj' h rfl
    exact .inl ⟨rfl, (List.cons.inj hy).1.symm, rfl⟩
  · rw [List.concat_eq_append, ← List.cons_append, ← List.append_assoc] at h
    obtain ⟨hl, hy⟩ := List.append_inj' h rfl
    exact .inr ⟨post', by rw [List.concat_eq_append, (List.cons.inj hy).1], hl⟩

/-- What the result queue has accepted only grows, by events of nodes and by sentinels. -/
theorem Step.pushed_eq (hs : Step tree σ x f σ' fs) :
    σ'.exportManager.pushed = σ.exportManager.pushed ∨
      (∃ data, f = .workerJob data .scan ∧
        σ'.exportManager.pushed = σ.exportManager.pushed ++ [data.event]) ∨
      ∃ id fake row, f = .finish id (.pushSentinel fake row) ∧
        σ'.exportManager.pushed = σ.exportManager.pushed ++ [fake] := by
  cases hs with
  | finish hs =>
    cases hs with
    | push_sentinel =>
      exact .inr (.inr ⟨_, _, _, rfl, by simp [ExportManager.pushed, List.append_assoc]⟩)
    | _ => exact .inl rfl
  | workerJob hs =>
    cases hs with
    | scan => exact .inr (.inl ⟨_, rfl, by simp [ExportManager.pushed, List.append_assoc]⟩)
    | _ => exact .inl rfl
  | result hs =>
    cases hs with
    | event hc | sentinel hc => exact .inl (by simp [ExportManager.pushed, hc])
    | _ => exact .inl rfl
  | http hs | run hs | workForever hs | main hs => cases hs <;> exact .inl rfl
  | cancelScan => exact .inl rfl

end ScanDaemon

import ScanDaemon.Daemon.Handlers

/-! # The router

A request is matched against the endpoints by testing whether its path begins
with theirs, first against those that are served while the server drains. No
endpoint of a method begins with another one, so at most one of them matches;
but it matches every longer path as well.
-/

namespace ScanDaemon

namespace HttpServer

/-- A test `method == m && path.rfind(p, 0) == 0`, and the handler that it leads to; `none`
is the answer 400. -/
structure Rule where
  method : List Char
  path : Path
  handler : List Char → Option Handler

/-- Whether the router takes the branch of a rule. -/
def Rule.Matches (rule : Rule) (request : RequestContent) : Prop :=
  request.method = rule.method ∧ rule.path <+: request.path

instance (rule : Rule) (request : RequestContent) : Decidable (rule.Matches request) :=
  inferInstanceAs (Decidable (_ ∧ _))

def get : List Char := "GET".toList

def post : List Char := "POST".toList

def rule (method : List Char) (path : String) (h : Handler) : Rule :=
  ⟨method, path.toList, fun _ => some h⟩

/-- The branch of `/index_summary`. -/
def summaryHandler (queries : List Char) : Option Handler :=
  match getQueryValue queries "type".toList with
  | none => none
  | some summaryType =>
    if summaryType = "extension".toList then some .indexSummaryExtension
    else if summaryType = "folder".toList then some .indexSummaryFolder
    else none

/-- The branches that come before the query is looked for. -/
def plainRules : List Rule :=
  [rule post "/shutdown" .shutdown, rule get "/metrics" .metrics,
    rule get "/download_time" .downloadTime]

/-- The branches that come behind it. -/
def queryRules : List Rule :=
  [rule post "/scan" .scan, rule post "/cancel" .cancel, rule get "/scans_history" .scansHistory,
    rule get "/state" .state, rule get "/exporting" .exporting,
    rule get "/scan_diff_summary" .scanDiffSummary, rule get "/scan_diff_detail" .scanDiffDetail,
    rule get "/index_detail" .indexSearchDetail, ⟨get, "/index_summary".toList, summaryHandler⟩]

/-- The paths that `allow` tests, behind the one of the homepage. -/
def drainPaths : List Path :=
  ["/metrics", "/state", "/exporting", "/scan_diff_summary", "/scan_diff_detail", "/index_detail",
    "/index_summary"].map String.toList

/-- The test for `GET /`. -/
def IsHomepage (request : RequestContent) : Prop := request.method = get ∧ request.path = ['/']

instance (request : RequestContent) : Decidable (IsHomepage request) :=
  inferInstanceAs (Decidable (_ ∧ _))

/-- `allow` -/
def Allowed (request : RequestContent) : Prop :=
  IsHomepage request ∨ request.method = get ∧ ∃ path ∈ drainPaths, path <+: request.path

instance (request : RequestContent) : Decidable (Allowed request) :=
  inferInstanceAs (Decidable (_ ∨ _ ∧ _))

/-- Where the router returns: with a status code, or in the call of a handler. -/
inductive Route
  | status (code : ℕ)
  | call (h : Handler) (queries : List Char)
  deriving DecidableEq, Repr

/-- The query of a path, the part behind its first question mark. -/
def queriesOf (path : Path) : List Char := (path.dropWhile (· ≠ '?')).drop 1

/-- The branches of `router`, with the flag as it has been loaded. -/
def route (inDrain : Bool) (request : RequestContent) : Route :=
  if inDrain && !decide (Allowed request) then .status 503
  else if IsHomepage request then .call .homepage []
  else match plainRules.find? (·.Matches request) with
    | some rule => match rule.handler [] with
      | some h => .call h []
      | none => .status 400
    | none =>
      if '?' ∉ request.path then .status 400
      else
        let queries := queriesOf request.path
        if queries = [] then .status 400
        else match queryRules.find? (·.Matches request) with
          | none => .status 404
          | some rule => match rule.handler queries with
            | some h => .call h queries
            | none => .status 400

/-- `router` -/
def router (env : Env) (inDrain : Bool) (request : RequestContent) : Reply :=
  match route inDrain request with
  | .status code => .status code
  | .call h queries => respond env queries h

/-! ## The documented endpoints -/

/-- The method in the table of endpoints. -/
def Handler.method : Handler → List Char
  | .scan | .cancel | .shutdown => post
  | _ => get

/-- The path in the table of endpoints. -/
def Handler.path : Handler → Path
  | .homepage => "/".toList
  | .scan => "/scan".toList
  | .cancel => "/cancel".toList
  | .state => "/state".toList
  | .exporting => "/exporting".toList
  | .scansHistory => "/scans_history".toList
  | .scanDiffSummary => "/scan_diff_summary".toList
  | .scanDiffDetail => "/scan_diff_detail".toList
  | .indexSummaryFolder | .indexSummaryExtension => "/index_summary".toList
  | .indexSearchDetail => "/index_detail".toList
  | .metrics => "/metrics".toList
  | .downloadTime => "/download_time".toList
  | .shutdown => "/shutdown".toList

/-- The handler that performs an operation. -/
def Operation.handler : Operation → Handler
  | .submitScan _ => .scan
  | .cancelScan _ => .cancel
  | .shutdown => .shutdown

/-- The part of the path in front of the question mark. -/
def pathPart (path : Path) : Path := path.takeWhile (· ≠ '?')

/-- The request is one for the endpoint of a handler. -/
def RequestContent.IsFor (request : RequestContent) (h : Handler) : Prop :=
  request.method = h.method ∧ pathPart request.path = h.path

/-- What the table of endpoints and the guard of the drain promise. -/
structure Guarded (env : Env) (inDrain : Bool) (request : RequestContent) : Prop where
  operation : ∀ op ∈ (router env inDrain request).operations, request.IsFor op.handler
  handler : ∀ h queries, route inDrain request = .call h queries →
    h ∉ [.scan, .cancel, .shutdown] → request.IsFor h
  drained : inDrain = true → (router env inDrain request).operations = []

/-- A handler performs its operation, or is the one that the query asks for. -/
def Handler.Takes (queries : List Char) (h : Handler) : Prop :=
  match h with
  | .scan | .cancel => (h.operation queries).isSome
  | .indexSummaryFolder | .indexSummaryExtension => summaryHandler queries = some h
  | _ => True

/-- The endpoint serves a request that begins with its path, whatever comes behind it. -/
structure Served (inDrain : Bool) (request : RequestContent) (h : Handler) : Prop where
  method : request.method = h.method
  path : h.path <+: request.path
  drain : inDrain = true → h.method = get ∧ h.path ∈ drainPaths
  takes : h ∈ [.shutdown, .metrics, .downloadTime] ∨
    queriesOf request.path ≠ [] ∧ h.Takes (queriesOf request.path)

variable {env : Env} {inDrain : Bool} {request : RequestContent} {r r' : Rule} {h : Handler}
  {queries : List Char} {op : Operation} {rules : List Rule}

/-! ## At most one branch matches -/

def allRules : List Rule := plainRules ++ queryRules

/-- No request can match two branches that are apart. -/
def Rule.Apart (r r' : Rule) : Prop :=
  r.method = r'.method → ¬ r.path <+: r'.path ∧ ¬ r'.path <+: r.path

instance : DecidableRel Rule.Apart := fun r r' =>
  inferInstanceAs (Decidable (r.method = r'.method → _ ∧ _))

instance : Std.Symm Rule.Apart := ⟨fun _ _ hab he => (hab he.symm).symm⟩

theorem allRules_apart : allRules.Pairwise Rule.Apart := by decide +kernel

theorem Rule.Matches.eq (hr : r ∈ allRules) (hr' : r' ∈ allRules) (hm : r.Matches request)
    (hm' : r'.Matches request) : r = r' := by
  by_contra hne
  obtain ⟨h₁, h₂⟩ := allRules_apart.forall hr hr' hne (hm.1.symm.trans hm'.1)
  rcases List.prefix_or_prefix_of_prefix hm.2 hm'.2 with hp | hp
  · exact h₁ hp
  · exact h₂ hp

theorem find_rule (hsub : rules ⊆ allRules) :
    rules.find? (·.Matches request) = some r ↔ r ∈ rules ∧ r.Matches request := by
  constructor
  · intro hf
    exact ⟨List.mem_of_find?_eq_some hf, by simpa using List.find?_some hf⟩
  · rintro ⟨hr, hm⟩
    cases hf : rules.find? (·.Matches request) with
    | none => exact absurd hm (by simpa using List.find?_eq_none.mp hf r hr)
    | some r' =>
      have hm' : r'.Matches request := by simpa using List.find?_some hf
      rw [hm'.eq (hsub (List.mem_of_find?_eq_some hf)) (hsub hr) hm]

theorem plainRules_subset : plainRules ⊆ allRules := List.subset_append_left _ _

theorem queryRules_subset : queryRules ⊆ allRules := List.subset_append_right _ _

theorem not_isHomepage (hr : r ∈ allRules) (hm : r.Matches request) : ¬ IsHomepage request := by
  rintro ⟨-, hp⟩
  have long : ∀ r ∈ allRules, ¬ r.path <+: ['/'] := by decide +kernel
  exact long r hr (hp ▸ hm.2)

/-- While the server drains a branch is reached if its path is one of those of `allow`. -/
theorem allowed_iff (hr : r ∈ allRules) (hm : r.Matches request) :
    Allowed request ↔ r.method = get ∧ r.path ∈ drainPaths := by
  constructor
  · rintro (hh | ⟨hget, path, hpath, hp⟩)
    · exact absurd hh (not_isHomepage hr hm)
    · have listed : ∀ path ∈ drainPaths, ∃ r' ∈ allRules,
          r'.method = get ∧ r'.path = path := by decide +kernel
      obtain ⟨r', hr', hg', rfl⟩ := listed path hpath
      obtain rfl := hm.eq hr hr' ⟨hget.trans hg'.symm, hp⟩
      exact ⟨hg', hpath⟩
  · rintro ⟨hget, hpath⟩
    exact Or.inr ⟨hm.1.trans hget, r.path, hpath, hm.2⟩

/-- The codes that the router returns itself are errors. -/
theorem route_code_ne {code : ℕ} (hroute : route inDrain request = .status code) : code ≠ 0 := by
  unfold route at hroute
  rintro rfl
  split at hroute
  · simp at hroute
  split at hroute
  · simp at hroute
  split at hroute
  · split at hroute <;> simp at hroute
  · split at hroute
    · simp at hroute
    · dsimp only at hroute
      split at hroute
      · simp at hroute
      · split at hroute
        · simp at hroute
        · split at hroute <;> simp at hroute

theorem router_answers (env : Env) (inDrain : Bool) (request : RequestContent) :
    (router env inDrain request).Answers := by
  unfold router
  cases hroute : route inDrain request with
  | call h queries => exact respond_answers h
  | status code => exact Reply.answers_status (route_code_ne hroute)

/-- The ways to reach a handler. -/
inductive Routed (inDrain : Bool) (request : RequestContent) : Handler → List Char → Prop

  | homepage : IsHomepage request → Routed inDrain request .homepage []

  | plain {r : Rule} {h : Handler} : r ∈ plainRules → r.Matches request →
      (inDrain = true → r.method = get ∧ r.path ∈ drainPaths) → r.handler [] = some h →
      Routed inDrain request h []

  | query {r : Rule} {h : Handler} : r ∈ queryRules → r.Matches request →
      (inDrain = true → r.method = get ∧ r.path ∈ drainPaths) →
      queriesOf request.path ≠ [] → r.handler (queriesOf request.path) = some h →
      Routed inDrain request h (queriesOf request.path)

theorem routed_of_route (hroute : route inDrain request = .call h queries) :
    Routed inDrain request h queries := by
  unfold route at hroute
  split at hroute
  · cases hroute
  next hdrain =>
    have drains : ∀ r ∈ allRules, r.Matches request → inDrain = true →
        r.method = get ∧ r.path ∈ drainPaths := by
      intro r hr hm hd
      exact (allowed_iff hr hm).mp (by simpa [hd] using hdrain)
    split at hroute
    next hh =>
      cases hroute
      exact .homepage hh
    split at hroute
    next r hf =>
      obtain ⟨hr, hm⟩ := (find_rule plainRules_subset).mp hf
      split at hroute
      next hh =>
        cases hroute
        exact .plain hr hm (drains r (plainRules_subset hr) hm) hh
      · cases hroute
    next =>
      split at hroute
      · cases hroute
      · dsimp only at hroute
        split at hroute
        · cases hroute
        next hq =>
          split at hroute
          · cases hroute
          next r hf =>
            obtain ⟨hr, hm⟩ := (find_rule queryRules_subset).mp hf
            split at hroute
            next hh =>
              cases hroute
              exact .query hr hm (drains r (queryRules_subset hr) hm) hq hh
            · cases hroute

theorem queriesOf_of_not_mem {path : Path} (hp : '?' ∉ path) : queriesOf path = [] := by
  have : path.dropWhile (· ≠ '?') = [] := by
    rw [List.dropWhile_eq_nil_iff]
    intro c hc
    simpa using ne_of_mem_of_not_mem hc hp
  rw [queriesOf, this, List.drop_nil]

theorem Routed.route_eq (hrouted : Routed inDrain request h queries) :
    route inDrain request = .call h queries := by
  have served : ∀ r ∈ allRules, r.Matches request →
      (inDrain = true → r.method = get ∧ r.path ∈ drainPaths) →
      ¬ (inDrain && !decide (Allowed request)) = true := by
    intro r hr hm hd
    cases inDrain with
    | false => simp
    | true => simp [(allowed_iff hr hm).mpr (hd rfl)]
  unfold route
  cases hrouted with
  | homepage hh =>
    have : Allowed request := Or.inl hh
    simp [this, hh]
  | plain hr hm hd hh =>
    rw [if_neg (served _ (plainRules_subset hr) hm hd),
      if_neg (not_isHomepage (plainRules_subset hr) hm),
      (find_rule plainRules_subset).mpr ⟨hr, hm⟩]
    simp only [hh]
  | @query r h hr hm hd hq hh =>
    have hnone : plainRules.find? (·.Matches request) = none := by
      rw [List.find?_eq_none]
      intro r' hr'
      rw [decide_eq_true_eq]
      intro hm'
      have disjoint : ∀ r ∈ plainRules, ∀ r' ∈ queryRules, r.path ≠ r'.path := by
        decide +kernel
      exact disjoint r' hr' r hr
        (congrArg Rule.path (hm'.eq (plainRules_subset hr') (queryRules_subset hr) hm))
    have hmem : '?' ∈ request.path := by
      by_contra hp
      exact hq (queriesOf_of_not_mem hp)
    rw [if_neg (served _ (queryRules_subset hr) hm hd),
      if_neg (not_isHomepage (queryRules_subset hr) hm), hnone]
    simp only [hmem, not_true_eq_false, if_false, hq,
      (find_rule queryRules_subset).mpr ⟨hr, hm⟩, hh]

/-! ## The guards -/

theorem summaryHandler_cases (hh : summaryHandler queries = some h) :
    h = .indexSummaryExtension ∨ h = .indexSummaryFolder := by
  unfold summaryHandler at hh
  split at hh
  · cases hh
  · split_ifs at hh
    · cases hh; exact Or.inl rfl
    · cases hh; exact Or.inr rfl

/-- A branch leads to handlers whose endpoint it tests for. -/
theorem handler_of_rule (hr : r ∈ allRules) (hh : r.handler queries = some h) :
    h ≠ .homepage ∧ h.method = r.method ∧ h.path = r.path := by
  simp only [allRules, plainRules, queryRules, List.cons_append, List.nil_append, List.mem_cons,
    List.not_mem_nil, or_false] at hr
  rcases hr with rfl | rfl | rfl | rfl | rfl | rfl | rfl | rfl | rfl | rfl | rfl | rfl
  case inr.inr.inr.inr.inr.inr.inr.inr.inr.inr.inr =>
    rcases summaryHandler_cases hh with rfl | rfl <;> exact ⟨by decide, rfl, rfl⟩
  all_goals
    cases hh
    exact ⟨by decide, rfl, rfl⟩

/-- The branch tests for the endpoint of the handler and leads to it. -/
def Rule.LeadsTo (r : Rule) (h : Handler) : Prop :=
  r.method = h.method ∧ r.path = h.path ∧
    (r ∈ plainRules ∧ h ∈ [.shutdown, .metrics, .downloadTime] ∧ r.handler [] = some h ∨
      r ∈ queryRules ∧ h ∉ [.shutdown, .metrics, .downloadTime] ∧
        ∀ queries, h.Takes queries → r.handler queries = some h)

theorem exists_leadsTo (hne : h ≠ .homepage) : ∃ r : Rule, r.LeadsTo h := by
  have plain : ∀ method path, rule method path h ∈ plainRules → method = h.method →
      path.toList = h.path → h ∈ [.shutdown, .metrics, .downloadTime] →
      ∃ r : Rule, r.LeadsTo h :=
    fun method path hr hm hp hmem =>
      ⟨rule method path h, hm, hp, Or.inl ⟨hr, hmem, rfl⟩⟩
  have query : ∀ method path, rule method path h ∈ queryRules → method = h.method →
      path.toList = h.path → h ∉ [.shutdown, .metrics, .downloadTime] →
      ∃ r : Rule, r.LeadsTo h :=
    fun method path hr hm hp hmem =>
      ⟨rule method path h, hm, hp, Or.inr ⟨hr, hmem, fun _ _ => rfl⟩⟩
  cases h with
  | homepage => exact absurd rfl hne
  | shutdown => exact plain post "/shutdown" (by simp [plainRules]) rfl rfl (by simp)
  | metrics => exact plain get "/metrics" (by simp [plainRules]) rfl rfl (by simp)
  | downloadTime => exact plain get "/download_time" (by simp [plainRules]) rfl rfl (by simp)
  | scan => exact query post "/scan" (by simp [queryRules]) rfl rfl (by simp)
  | cancel => exact query post "/cancel" (by simp [queryRules]) rfl rfl (by simp)
  | state => exact query get "/state" (by simp [queryRules]) rfl rfl (by simp)
  | exporting => exact query get "/exporting" (by simp [queryRules]) rfl rfl (by simp)
  | scansHistory => exact query get "/scans_history" (by simp [queryRules]) rfl rfl (by simp)
  | scanDiffSummary =>
    exact query get "/scan_diff_summary" (by simp [queryRules]) rfl rfl (by simp)
  | scanDiffDetail => exact query get "/scan_diff_detail" (by simp [queryRules]) rfl rfl (by simp)
  | indexSearchDetail => exact query get "/index_detail" (by simp [queryRules]) rfl rfl (by simp)
  | indexSummaryFolder | indexSummaryExtension =>
    exact ⟨⟨get, "/index_summary".toList, summaryHandler⟩, rfl, rfl,
      Or.inr ⟨by simp [queryRules], by simp, fun _ => id⟩⟩

/-- An endpoint that serves a request is reached by it. -/
theorem Served.routed (hs : Served inDrain request h) (hne : h ≠ .homepage) :
    ∃ queries, Routed inDrain request h queries ∧
      (h ∉ [.shutdown, .metrics, .downloadTime] → h.Takes queries) := by
  obtain ⟨r, hm, hp, hr⟩ := exists_leadsTo hne
  have hmatch : r.Matches request := ⟨hs.method.trans hm.symm, hp ▸ hs.path⟩
  have hdrain : inDrain = true → r.method = get ∧ r.path ∈ drainPaths := by
    rw [hm, hp]
    exact hs.drain
  rcases hr with ⟨hr, hmem, hh⟩ | ⟨hr, hmem, hh⟩
  · exact ⟨[], .plain hr hmatch hdrain hh, fun hn => absurd hmem hn⟩
  · obtain ⟨hq, ht⟩ := hs.takes.resolve_left hmem
    exact ⟨_, .query hr hmatch hdrain hq (hh _ ht), fun _ => ht⟩

/-- A handler that is reached serves the request, unless it lacks what its operation needs. -/
theorem Routed.served (hrouted : Routed inDrain request h queries) (hne : h ≠ .homepage)
    (ht : h ∈ [.scan, .cancel] → (h.operation queries).isSome) : Served inDrain request h := by
  cases hrouted with
  | homepage => exact absurd rfl hne
  | @plain r _ hr hm hd hh =>
    obtain ⟨-, hmethod, hpath⟩ := handler_of_rule (plainRules_subset hr) hh
    refine ⟨hm.1.trans hmethod.symm, hpath ▸ hm.2, ?_, Or.inl ?_⟩
    · rw [hmethod, hpath]
      exact hd
    · simp only [plainRules, List.mem_cons, List.not_mem_nil, or_false] at hr
      rcases hr with rfl | rfl | rfl <;> cases hh <;> simp
  | @query r _ hr hm hd hq hh =>
    obtain ⟨-, hmethod, hpath⟩ := handler_of_rule (queryRules_subset hr) hh
    refine ⟨hm.1.trans hmethod.symm, hpath ▸ hm.2, ?_, Or.inr ⟨hq, ?_⟩⟩
    · rw [hmethod, hpath]
      exact hd
    · cases h with
      | scan | cancel => exact ht (by simp)
      | indexSummaryFolder | indexSummaryExtension =>
        simp only [queryRules, List.mem_cons, List.not_mem_nil, or_false] at hr
        rcases hr with rfl | rfl | rfl | rfl | rfl | rfl | rfl | rfl | rfl
        case inr.inr.inr.inr.inr.inr.inr.inr => exact hh
        all_goals cases hh
      | _ => trivial

/-- No endpoint serves the request for a longer path than its own. -/
def NothingLonger (inDrain : Bool) (request : RequestContent) : Prop :=
  ∀ h ≠ .homepage, Served inDrain request h → pathPart request.path = h.path

/-- Only the handler of an operation performs it. -/
theorem Handler.operation_eq_some (ho : h.operation queries = some op) : h = op.handler := by
  cases h with
  | scan | cancel =>
    obtain ⟨x, -, rfl⟩ := Option.map_eq_some_iff.mp ho
    rfl
  | shutdown => cases ho; rfl
  | _ => cases ho

theorem Operation.handler_method (op : Operation) : op.handler.method = post := by
  cases op <;> rfl

theorem Operation.handler_ne (op : Operation) : op.handler ≠ .homepage := by
  cases op <;> exact Handler.noConfusion

theorem mem_operations_iff : op ∈ (router env inDrain request).operations ↔
    ∃ queries, route inDrain request = .call op.handler queries ∧
      op.handler.operation queries = some op := by
  unfold router
  cases route inDrain request with
  | status code => simp [Reply.status]
  | call h queries =>
    simp only [respond_operations, Option.mem_toList, Route.call.injEq]
    constructor
    · intro ho
      have hh := Handler.operation_eq_some ho
      exact ⟨queries, ⟨hh, rfl⟩, hh ▸ ho⟩
    · rintro ⟨_, ⟨rfl, rfl⟩, ho⟩
      exact ho

/-- An operation is performed only where its endpoint serves the request. -/
theorem served_of_operation (hop : op ∈ (router env inDrain request).operations) :
    Served inDrain request op.handler := by
  obtain ⟨queries, hroute, ho⟩ := mem_operations_iff.mp hop
  exact (routed_of_route hroute).served op.handler_ne fun _ => by rw [ho]; rfl

/-- While the server drains, no operation is performed. -/
theorem operations_drained (env : Env) (request : RequestContent) :
    (router env true request).operations = [] := by
  rw [List.eq_nil_iff_forall_not_mem]
  intro op hop
  have hget := ((served_of_operation hop).drain rfl).1
  rw [op.handler_method] at hget
  exact absurd hget (by decide)

/-- The router keeps to the table of endpoints exactly if no endpoint serves the request for a
longer path than its own; while the server drains, no operation is performed in any case. -/
theorem router_guarded_iff (env : Env) (inDrain : Bool) (request : RequestContent) :
    (Guarded env inDrain request ↔ NothingLonger inDrain request) ∧
      (router env true request).operations = [] := by
  refine ⟨⟨fun hg h hne hs => ?_, fun hn => ⟨fun op hop => ?_,
    fun h queries hroute hmem => ?_, ?_⟩⟩, operations_drained env request⟩
  · obtain ⟨queries, hrouted, ht⟩ := hs.routed hne
    by_cases hmem : h ∈ [.scan, .cancel, .shutdown]
    · have hop : (h.operation queries).isSome := by
        simp only [List.mem_cons, List.not_mem_nil, or_false] at hmem
        rcases hmem with rfl | rfl | rfl
        · exact ht (by simp)
        · exact ht (by simp)
        · rfl
      obtain ⟨op, ho⟩ := Option.isSome_iff_exists.mp hop
      obtain rfl := Handler.operation_eq_some ho
      exact (hg.operation op (mem_operations_iff.mpr ⟨queries, hrouted.route_eq, ho⟩)).2
    · exact (hg.handler h queries hrouted.route_eq hmem).2
  · have hs := served_of_operation hop
    exact ⟨hs.method, hn _ op.handler_ne hs⟩
  · have hrouted := routed_of_route hroute
    by_cases hne : h = .homepage
    · subst hne
      cases hrouted with
      | homepage hh => exact ⟨hh.1, by rw [hh.2]; decide⟩
      | plain hr _ _ hh => exact absurd rfl (handler_of_rule (plainRules_subset hr) hh).1
      | query hr _ _ _ hh => exact absurd rfl (handler_of_rule (queryRules_subset hr) hh).1
    · have hs := hrouted.served hne fun hm => by simp_all
      exact ⟨hs.method, hn h hne hs⟩
  · rintro rfl
    exact operations_drained env request

/-- A request to a path that continues the one of an endpoint. -/
def scansRequest : RequestContent := ⟨post, "/scans_history?root=/a".toList⟩

/-- A daemon with nothing to show that accepts every scan. -/
def acceptingEnv : Env where
  servePage := none
  userDownloadSec := 0
  metric := fun _ => 0
  submitScan := fun _ => (.ok, 1)
  cancelScan := fun _ => false
  getState := fun ids => ids.map fun _ => .pending
  checkExported := fun ids => ids.map fun _ => false
  getAll := fun _ _ => []
  getData := fun id => (⟨id, 0, 0, [], .done⟩, ⟨0, 0, 0, 0⟩)
  getScanDiffCount := fun _ => ⟨0, 0, 0, 0, 0⟩
  getScanDiffDetail := fun _ _ _ _ => []
  search := fun _ _ _ => []
  getTopRootInIndex := []
  groupByFolder := fun _ => []
  groupByExtension := fun _ => []
  getDiskInfo := fun _ => ⟨0, 0⟩

/-- A POST to "/scans_history" with a root submits a scan. -/
theorem router_longer :
    (router acceptingEnv false scansRequest).operations = [.submitScan "/a".toList] ∧
      scansRequest.method = post ∧ pathPart scansRequest.path = Handler.scansHistory.path ∧
      pathPart scansRequest.path ≠ Handler.scan.path ∧
      ¬ Guarded acceptingEnv false scansRequest := by
  have hop : (router acceptingEnv false scansRequest).operations =
      [.submitScan "/a".toList] := by decide +kernel
  have hpath : pathPart scansRequest.path ≠ Handler.scan.path := by decide +kernel
  refine ⟨hop, rfl, by decide +kernel, hpath, fun hg => hpath ?_⟩
  exact (hg.operation (.submitScan "/a".toList) (hop ▸ List.mem_singleton_self _)).2

end HttpServer

end ScanDaemon

import Lcpl.Proofs.Arena.Annotates
import Lcpl.Proofs.Body.Root
import Lcpl.Proofs.Ensures
import Lcpl.Proofs.Format.Canonical

/-!
# The footprint of a check

The check of a tree goes into each node of the tree at most once and leaves all other nodes as they
are. What it records are types of the registry. And it appends few nodes: a part whose value was
found may be wrapped in one cast, and a call without receiver is given one. So a rule may spend one
node for every part that it has visited, and one more. All of this holds whichever way the check
ends.

## Main definitions

* `Arena.Mentions` — a type is recorded at some node
* `Session.Advances` — what a check that goes into given nodes can do to a session
* `Body.Ledger` — the node whose rule runs, with the nodes below its parts
* `Ledger.At`, `Ledger.Left` — what holds while a rule runs, and after it has failed

## Main results

* `Ledger.runs_rule` — the rule for every form keeps within its means
* `Body.advances_checkBelow` — the check of a tree appends less than two nodes for each of its nodes
* `Expectation.advances_check` — the check of a root
-/

namespace Lcpl

/-- The type is recorded for a type of the registry. -/
def Registry.IsLabel (registry : Registry) (type : TypeName) : Prop :=
  ∃ ty, registry.label? ty = some type

/-- The node that a check goes into, if this is what the event reports. -/
def Event.visited? : Event → Option ExprId
  | exprVisited _ id _ => some id
  | _ => none

/-- The nodes that checks went into, in their order. -/
def Event.visits (log : Array Event) : List ExprId := log.toList.filterMap visited?

theorem Event.visits_push (log : Array Event) (event : Event) :
    visits (log.push event) = visits log ++ event.visited?.toList := by
  cases h : event.visited? <;> simp [visits, h]

namespace Arena

variable {a : Arena} {id : ExprId} {node : Node} {type : TypeName}

/-- The type is recorded at some node. -/
def Mentions (a : Arena) (type : TypeName) : Prop :=
  ∃ id node, a.get? id = some node ∧ type ∈ node.types

theorem mem_types_iff_mentions : type ∈ a.nodes.toList.flatMap Node.types ↔ a.Mentions type := by
  rw [List.mem_flatMap]
  constructor
  · rintro ⟨node, hnode, htype⟩
    obtain ⟨i, hi⟩ := Array.mem_iff_getElem?.mp (Array.mem_toList_iff.mp hnode)
    exact ⟨⟨i⟩, node, hi, htype⟩
  · rintro ⟨id, node, hget, htype⟩
    exact ⟨node, Array.mem_toList_iff.mpr (Array.mem_of_getElem? hget), htype⟩

theorem Mentions.of_alloc (h : (a.alloc node).Mentions type) :
    a.Mentions type ∨ type ∈ node.types := by
  obtain ⟨other, found, hget, htype⟩ := h
  rw [get?_alloc] at hget
  split at hget
  · obtain rfl := Option.some_inj.mp hget
    exact .inr htype
  · exact .inl ⟨other, found, hget, htype⟩

theorem Mentions.of_set (h : (a.set id node).Mentions type) :
    a.Mentions type ∨ type ∈ node.types := by
  obtain ⟨other, found, hget, htype⟩ := h
  rw [get?_set] at hget
  split at hget
  · obtain rfl := Option.some_inj.mp hget
    exact .inr htype
  · exact .inl ⟨other, found, hget, htype⟩

end Arena

namespace Session

variable {registry : Registry} {ids ids' : List ExprId} {n n' : Nat} {s s' s'' : Session}

/-- What a check that goes into the nodes `ids` can do to a session. It goes into each of them at
most once, leaves every other node as it is, appends `n` nodes at most, and records types of the
registry. -/
structure Advances (registry : Registry) (ids : List ExprId) (n : Nat) (s s' : Session) : Prop where
  visits : ∃ seen, Event.visits s'.log = Event.visits s.log ++ seen ∧ seen.Subperm ids
  size_le : s.arena.size ≤ s'.arena.size
  size_le_add : s'.arena.size ≤ s.arena.size + n
  get?_eq : ∀ x : ExprId, x.index < s.arena.size → x ∉ ids → s'.arena.get? x = s.arena.get? x
  mentions : ∀ type, s'.arena.Mentions type → s.arena.Mentions type ∨ registry.IsLabel type

namespace Advances

theorem of_eq (harena : s'.arena = s.arena) (hlog : Event.visits s'.log = Event.visits s.log) :
    Advances registry [] 0 s s' where
  visits := ⟨[], by rw [hlog, List.append_nil], .refl []⟩
  size_le := by rw [harena]
  size_le_add := by rw [harena, Nat.add_zero]
  get?_eq _ _ _ := by rw [harena]
  mentions _ h := .inl (harena ▸ h)

theorem trans (h : Advances registry ids n s s') (h' : Advances registry ids' n' s' s'') :
    Advances registry (ids ++ ids') (n + n') s s'' where
  visits := by
    obtain ⟨seen, hseen, hsub⟩ := h.visits
    obtain ⟨seen', hseen', hsub'⟩ := h'.visits
    refine ⟨seen ++ seen', ?_, hsub.append hsub'⟩
    rw [hseen', hseen, List.append_assoc]
  size_le := h.size_le.trans h'.size_le
  size_le_add := by
    have := h.size_le_add
    have := h'.size_le_add
    omega
  get?_eq x hlt hx := by
    rw [List.mem_append, not_or] at hx
    rw [h'.get?_eq x (hlt.trans_le h.size_le) hx.2, h.get?_eq x hlt hx.1]
  mentions type htype := by
    rcases h'.mentions type htype with htype | hlabel
    · exact h.mentions type htype
    · exact .inr hlabel

theorem mono (h : Advances registry ids n s s') (hids : ids.Subperm ids') (hn : n ≤ n') :
    Advances registry ids' n' s s' where
  visits := by
    obtain ⟨seen, hseen, hsub⟩ := h.visits
    exact ⟨seen, hseen, hsub.trans hids⟩
  size_le := h.size_le
  size_le_add := h.size_le_add.trans (Nat.add_le_add_left hn _)
  get?_eq x hlt hx := h.get?_eq x hlt fun hmem => hx (hids.subset hmem)
  mentions := h.mentions

/-- Something happens that concerns neither the nodes nor the visits. -/
theorem trans_of_eq (h : Advances registry ids n s s') (harena : s''.arena = s'.arena)
    (hlog : Event.visits s''.log = Event.visits s'.log) : Advances registry ids n s s'' := by
  have hsame : Advances registry [] 0 s' s'' := of_eq harena hlog
  simpa using h.trans hsame

theorem alloc {node : Node} (h : ∀ type ∈ node.types, registry.IsLabel type) :
    Advances registry [] 1 s { s with arena := s.arena.alloc node } where
  visits := ⟨[], by rw [List.append_nil], .refl []⟩
  size_le := by simp
  size_le_add := by simp
  get?_eq x hlt _ := Arena.get?_alloc_of_lt hlt
  mentions type htype := htype.of_alloc.imp_right (h type)

/-- One of the nodes is written. -/
theorem record {id : ExprId} {node : Node} (h : Advances registry ids n s s') (hid : id ∈ ids)
    (hnode : ∀ type ∈ node.types, registry.IsLabel type) :
    Advances registry ids n s { s' with arena := s'.arena.set id node } where
  visits := h.visits
  size_le := by simpa using h.size_le
  size_le_add := by simpa using h.size_le_add
  get?_eq x hlt hx := by
    rw [Arena.get?_set, if_neg, h.get?_eq x hlt hx]
    rintro ⟨rfl, -⟩
    exact hx hid
  mentions type htype := by
    rcases htype.of_set with htype | htype
    · exact h.mentions type htype
    · exact .inr (hnode type htype)

end Advances

end Session

namespace Body

open Step (Ensures)
open Session (Advances)

/-! ### Steps that are not noticed -/

/-- The step changes no node and goes into none. -/
def Silent {α : Type} (step : Body α) : Prop :=
  ∀ s, (step.runFrom s).2.arena = s.arena ∧
    Event.visits (step.runFrom s).2.log = Event.visits s.log

theorem silent_get : Silent (get : Body Session) := fun _ => ⟨rfl, rfl⟩

theorem silent_emit {event : Event} (h : event.visited? = none) : Silent (emit event) := by
  refine fun s => ⟨rfl, ?_⟩
  rw [emit, Step.runFrom_modify]
  rw [Event.visits_push, h, Option.toList_none, List.append_nil]

theorem silent_define (name : String) (line : Line) (ty : Ty) : Silent (define name line ty) :=
  fun _ => ⟨rfl, rfl⟩

theorem silent_of_constant {α : Type} {step : Body α} {result : Except Failure α}
    (h : Step.Constant step result) : Silent step := by
  intro s
  rw [h.runFrom_eq]
  exact ⟨rfl, rfl⟩

theorem silent_node (id : ExprId) : Silent (node id) := by
  intro s
  rw [node, Step.runFrom_bind_of_ok (Step.runFrom_get s), (Step.constant_demand ..).runFrom_eq]
  exact ⟨rfl, rfl⟩

theorem silent_castLine (id : ExprId) (source : Ty) (site : Line) :
    Silent (castLine id source site) := by
  unfold castLine
  split
  · exact fun s => ⟨rfl, rfl⟩
  · intro s
    have hnode := silent_node id s
    rw [Step.runFrom_bind]
    split
    · next value after hrun => rwa [hrun] at hnode
    · next failure after hrun => rwa [hrun] at hnode

/-! ### The means of a rule -/

/-- A node whose rule runs. Each of its parts has nodes below it, which are put together in `ids`.
Of the nodes that may be appended, `extra` are not earned by a visit to a part. -/
structure Ledger (registry : Registry) where
  start : Session
  own : ExprId → List ExprId → Prop
  ids : List ExprId
  extra : Nat
  nodup : ids.Nodup
  lt_size : ∀ x ∈ ids, x.index < start.arena.size

namespace Ledger

variable {registry : Registry} (v : Ledger registry)

/-- What holds while a rule runs. The parts `pending` wait, and are as they were. Below the others
are the nodes `done`. The rule may append `spare` more nodes. -/
structure At (pending : List ExprId) (spare : Nat) (s : Session) : Prop where
  exists_split : ∃ done rest n, v.ids = done ++ rest ∧ Jointly v.own pending rest ∧
    Advances registry done n v.start s ∧ n + spare ≤ 2 * done.length + v.extra

/-- What holds after a rule has failed. -/
def Left (s : Session) : Prop :=
  Advances registry v.ids (2 * v.ids.length + v.extra) v.start s

/-- The check of a part keeps to the nodes below the part, as long as these are as they were. It
appends less than two nodes for each of them. -/
def Visits (recur : ExprId → Body Ty) : Prop :=
  ∀ p own, v.own p own → own.Nodup → own ≠ [] ∧
    ∀ s : Session, (∀ x ∈ own, s.arena.get? x = v.start.arena.get? x) →
      Advances registry own (2 * own.length - 1) s ((recur p).runFrom s).2

/-- From a session with `pre`, the step yields something and leaves one with `post`, or it fails and
leaves what may be left. -/
def Runs {α : Type} (pre : Session → Prop) (step : Body α) (post : α → Session → Prop) : Prop :=
  Ensures pre step post fun _ => v.Left

variable {v} {pending : List ExprId} {spare spare' : Nat} {s s' : Session} {p : ExprId}
variable {α β : Type} {pre : Session → Prop} {post : β → Session → Prop} {recur : ExprId → Body Ty}

theorem At.left (h : v.At pending spare s) : v.Left s := by
  obtain ⟨done, rest, n, hids, -, hadvances, hn⟩ := h.exists_split
  have hdone : done.Subperm v.ids := by
    rw [hids]
    exact (List.sublist_append_left done rest).subperm
  refine hadvances.mono hdone ?_
  have := hdone.length_le
  omega

/-- A node that may be appended need not be. -/
theorem At.mono (h : v.At pending spare s) (hspare : spare' ≤ spare) : v.At pending spare' s := by
  obtain ⟨done, rest, n, hids, hrest, hadvances, hn⟩ := h.exists_split
  exact ⟨done, rest, n, hids, hrest, hadvances, by omega⟩

theorem At.of_eq (h : v.At pending spare s) (harena : s'.arena = s.arena)
    (hlog : Event.visits s'.log = Event.visits s.log) : v.At pending spare s' := by
  obtain ⟨done, rest, n, hids, hrest, hadvances, hn⟩ := h.exists_split
  exact ⟨done, rest, n, hids, hrest, hadvances.trans_of_eq harena hlog, hn⟩

theorem at_start (h : Jointly v.own pending v.ids) : v.At pending v.extra v.start :=
  ⟨[], v.ids, 0, rfl, h, .of_eq rfl rfl, by simp⟩

/-- A step that is not noticed comes first. -/
theorem bind_silent {step : Body α} {next : α → Body β} (hsilent : Silent step)
    (hnext : ∀ a, v.Runs (v.At pending spare) (next a) post) :
    v.Runs (v.At pending spare) (step >>= next) post := by
  intro s h
  have h' := h.of_eq (hsilent s).1 (hsilent s).2
  rw [Step.runFrom_bind]
  rcases hrun : step.runFrom s with ⟨failure | a, s'⟩
  · rw [hrun] at h'
    exact h'.left
  · rw [hrun] at h'
    exact hnext a s' h'

theorem runs_reject {error : SemanticError} {line : Line} :
    v.Runs (v.At pending spare) (Step.reject error line : Body β) post :=
  .reject fun _ h => h.left

theorem bind_reject {error : SemanticError} {line : Line} {next : α → Body β} :
    v.Runs (v.At pending spare) (Step.reject error line >>= next) post :=
  .bind_reject fun _ h => h.left

theorem runs_fault {f : Fault} : v.Runs (v.At pending spare) (Step.fault f : Body β) post :=
  fun _ h => h.left

/-- A scope of its own changes nothing for the nodes. -/
theorem runs_inScope {pending' : List ExprId} {step : Body β}
    (h : v.Runs (v.At pending spare) step fun _ => v.At pending' spare') :
    v.Runs (v.At pending spare) (inScope step) fun _ => v.At pending' spare' := by
  intro s hs
  have hstep := h { s with scopes := s.scopes.enter } (hs.of_eq rfl rfl)
  rcases hrun : step.runFrom { s with scopes := s.scopes.enter } with ⟨result, after⟩
  rw [hrun] at hstep
  cases hleave : after.scopes.leave? with
  | none =>
    -- a step that has left its own scope makes the rule fail, but the nodes are those it has left
    rw [runFrom_inScope_of_none hrun hleave]
    cases result with
    | error failure => exact hstep
    | ok a => exact hstep.left
  | some scopes =>
    rw [runFrom_inScope hrun hleave]
    cases result with
    | error failure => exact hstep.trans_of_eq rfl rfl
    | ok a => exact hstep.of_eq rfl rfl

/-! ### Earning and spending -/

/-- No node below a part that waits was visited. -/
theorem At.exists_split_cons (h : v.At (p :: pending) spare s) :
    ∃ done own rest n, v.ids = done ++ (own ++ rest) ∧ v.own p own ∧ Jointly v.own pending rest ∧
      Advances registry done n v.start s ∧ n + spare ≤ 2 * done.length + v.extra ∧ own.Nodup ∧
      ∀ x ∈ own, s.arena.get? x = v.start.arena.get? x := by
  obtain ⟨done, _, n, hids, hrest, hadvances, hn⟩ := h.exists_split
  obtain ⟨own, rest, rfl, hown, hrest⟩ := Jointly.cons_iff.mp hrest
  have hnodup := v.nodup
  rw [hids] at hnodup
  refine ⟨done, own, rest, n, hids, hown, hrest, hadvances, hn,
    hnodup.of_append_right.of_append_left, fun x hx => ?_⟩
  apply hadvances.get?_eq x
  · apply v.lt_size
    rw [hids]
    exact List.mem_append_right _ (List.mem_append_left _ hx)
  · intro hdone
    exact List.disjoint_of_nodup_append hnodup hdone (List.mem_append_left _ hx)

/-- A part is visited, by whatever keeps to the nodes below it. What is not spent there may be spent
later. -/
theorem At.visit {gain : Nat} (h : v.At (p :: pending) spare s)
    (hvisit : ∀ own, v.own p own → own.Nodup → (∀ x ∈ own, s.arena.get? x = v.start.arena.get? x) →
      ∃ n, n + gain ≤ 2 * own.length ∧ Advances registry own n s s') :
    v.At pending (spare + gain) s' := by
  obtain ⟨done, own, rest, n, hids, hown, hrest, hadvances, hn, hnodup, hwaits⟩ :=
    h.exists_split_cons
  obtain ⟨n', hn', hadvances'⟩ := hvisit own hown hnodup hwaits
  refine ⟨done ++ own, rest, n + n', ?_, hrest, hadvances.trans hadvances', ?_⟩
  · rw [hids, List.append_assoc]
  · rw [List.length_append]
    omega

/-- The visit of a part earns one node. -/
theorem runs_recur (hvisits : v.Visits recur) :
    v.Runs (v.At (p :: pending) spare) (recur p) fun _ => v.At pending (spare + 1) := by
  intro s h
  have hat : v.At pending (spare + 1) ((recur p).runFrom s).2 := by
    refine h.visit fun own hown hnodup hwaits => ?_
    obtain ⟨hne, hvisit⟩ := hvisits p own hown hnodup
    have := List.length_pos_iff.mpr hne
    exact ⟨2 * own.length - 1, by omega, hvisit s hwaits⟩
  rcases hrun : (recur p).runFrom s with ⟨failure | ty, s'⟩
  · rw [hrun] at hat
    exact hat.left
  · rw [hrun] at hat
    exact hat

/-- The parts are trees, and the check of a tree keeps to its nodes. -/
theorem visits_of_own {ι : Type} {mark : ExprId → ι} (hown : v.own = v.start.arena.Readable mark)
    (h : ∀ {s : Session} {p : ExprId} {t : Term ι} {own : List ExprId}, s.arena.Reads mark p t own →
      own.Nodup → Advances registry own (2 * own.length - 1) s ((recur p).runFrom s).2) :
    v.Visits recur := by
  intro p own hp hnodup
  rw [hown] at hp
  obtain ⟨t, hread⟩ := hp
  exact ⟨List.ne_nil_of_mem hread.mem_self, fun s hs => h (hread.of_get? hs) hnodup⟩

theorem bind_recur (hvisits : v.Visits recur) {next : Ty → Body β}
    (hnext : ∀ ty, v.Runs (v.At pending (spare + 1)) (next ty) post) :
    v.Runs (v.At (p :: pending) spare) (recur p >>= next) post :=
  Ensures.bind (runs_recur hvisits) hnext

/-- A node is appended. -/
theorem runs_alloc {line : Line} {expr : Expr} {type : TypeName}
    (h : ∀ type' ∈ (Node.mk line expr (some type)).types, registry.IsLabel type') :
    v.Runs (v.At pending (spare + 1)) (alloc line expr type) fun _ => v.At pending spare := by
  intro s hs
  obtain ⟨done, rest, n, hids, hrest, hadvances, hn⟩ := hs.exists_split
  refine ⟨done, rest, n + 1, hids, hrest, ?_, by omega⟩
  simpa using hadvances.trans (Advances.alloc h)

section Rules

variable {Γ : Context} {v : Ledger Γ.registry}

/-- A type of the registry is found, or the rule fails. -/
theorem bind_label {ty : Ty} {next : TypeName → Body β}
    (hnext : ∀ type, Γ.registry.IsLabel type → v.Runs (v.At pending spare) (next type) post) :
    v.Runs (v.At pending spare) (label Γ ty >>= next) post :=
  Ensures.bind_demand_cases (fun _ _ h => h.left) fun type hlabel => hnext type ⟨ty, hlabel⟩

theorem runs_wrapInCast (p : ExprId) (target : Ty) (line : Line) :
    v.Runs (v.At pending (spare + 1)) (wrapInCast Γ p target line) fun _ => v.At pending spare := by
  refine bind_label fun type hlabel => ?_
  refine Ensures.bind (runs_alloc (by simpa [Node.types, Expr.types] using hlabel)) fun cast => ?_
  exact bind_silent (silent_emit rfl) fun _ => .pure fun _ h => h

theorem runs_convert (p : ExprId) (source target : Ty) (site : Line) :
    v.Runs (v.At pending (spare + 1)) (convert Γ p source target site)
      fun _ => v.At pending spare := by
  unfold convert
  split
  · exact .pure fun _ h => h.mono (by omega)
  · exact bind_silent (silent_castLine _ _ _) fun line => runs_wrapInCast p _ line
  · refine bind_silent (silent_of_constant (constant_typeName ..)) fun source => ?_
    exact bind_silent (silent_of_constant (constant_typeName ..)) fun target => runs_reject

/-- What a part has earned is enough to convert its value. -/
theorem runs_part (hvisits : v.Visits recur) (expected : Ty) (site : Line) :
    v.Runs (v.At (p :: pending) spare) (checkPart Γ recur p expected site)
      fun _ => v.At pending spare :=
  bind_recur hvisits fun ty => runs_convert p ty expected site

theorem runs_items (hvisits : v.Visits recur) (ty : Ty) (items : List ExprId) :
    v.Runs (v.At items spare) (checkItems recur ty items) fun _ => v.At [] spare := by
  induction items generalizing ty spare with
  | nil => exact .pure fun _ h => h
  | cons item items ih =>
    -- items are not converted, so what they earn is left over
    refine bind_recur hvisits fun ty => (ih ty).mono (fun _ h => h) ?_
    exact fun _ _ h => h.mono (by omega)

theorem runs_args (hvisits : v.Visits recur) (line : Line) (args : List ExprId)
    (params : List ParamDef) :
    v.Runs (v.At args spare) (checkArgs Γ recur line args params) fun _ => v.At [] spare := by
  induction args generalizing params with
  | nil =>
    cases params with
    | nil => exact .pure fun _ h => h
    | cons param params => exact runs_fault
  | cons arg args ih =>
    cases params with
    | nil => exact runs_fault
    | cons param params =>
      refine Ensures.bind (runs_part hvisits param.ty line) fun slot => ?_
      exact Ensures.bind (ih params) fun slots => .pure fun _ h => h

/-! ### The rules -/

/-- What a rule has made of an expression: it records types of the registry. -/
def Result (v : Ledger Γ.registry) (r : Expr × Ty) (s : Session) : Prop :=
  v.Left s ∧ ∀ type ∈ r.1.types, Γ.registry.IsLabel type

/-- A rule ends with a form that has no place for a type. -/
theorem runs_plain {expr : Expr} {ty : Ty} (hpre : ∀ s, pre s → v.Left s) (h : expr.types = []) :
    v.Runs pre (pure (expr, ty)) v.Result := by
  refine .pure fun s hs => ⟨hpre s hs, ?_⟩
  simp [h]

theorem runs_call (hvisits : v.Visits recur) (line : Line) (receiver : Ty) (name : String)
    (args : List ExprId) :
    v.Runs (v.At args spare) (checkCall Γ recur line receiver name args)
      fun _ => v.At [] spare := by
  unfold checkCall
  split
  · exact bind_silent (silent_of_constant (constant_typeName ..)) fun source => runs_reject
  · next method _ =>
    dsimp only
    split
    · exact bind_reject
    · split
      · exact bind_reject
      · exact Ensures.bind (runs_args hvisits line args method.params) fun slots =>
          .pure fun _ h => h

theorem runs_receiver (hvisits : v.Visits recur) (receiver : Option ExprId) (args : List ExprId) :
    v.Runs (v.At (receiver.toList ++ args) (spare + 1)) (checkReceiver Γ recur receiver)
      fun _ => v.At args spare := by
  cases receiver with
  | none =>
    -- the only node that is not earned by a visit
    refine bind_label fun type hlabel => ?_
    refine Ensures.bind (runs_alloc ?_) fun self => .pure fun _ h => h
    simpa [Node.types, Expr.types] using hlabel
  | some receiver => exact bind_recur hvisits fun ty => .pure fun _ h => h.mono (by omega)

theorem runs_dispatch (hvisits : v.Visits recur) (line : Line) (receiver : Option ExprId)
    (name : String) (args : List ExprId) :
    v.Runs (v.At (receiver.toList ++ args) (spare + 1))
      (checkDispatch Γ recur line receiver name args) v.Result := by
  refine Ensures.bind (runs_receiver hvisits receiver args) fun r => ?_
  refine Ensures.bind (runs_call hvisits line r.2 name args) fun call => ?_
  refine bind_silent (silent_of_constant (Visiting.constant_methodRef ..)) fun ref => ?_
  exact runs_plain (fun _ h => h.left) rfl

theorem runs_staticDispatch (hvisits : v.Visits recur) (line : Line) (receiver : ExprId)
    (target name : String) (args : List ExprId) :
    v.Runs (v.At (receiver :: args) spare)
      (checkStaticDispatch Γ recur line receiver target name args) v.Result := by
  refine bind_recur hvisits fun receiverTy => ?_
  refine bind_silent (silent_of_constant (constant_resolve ..)) fun targetTy => ?_
  dsimp only
  split
  · exact bind_silent (silent_of_constant (constant_typeName ..)) fun source => bind_reject
  · refine bind_label fun type hlabel => ?_
    refine Ensures.bind (runs_call hvisits line targetTy name args) fun call => ?_
    refine bind_silent (silent_of_constant (Visiting.constant_methodRef ..)) fun ref => ?_
    refine .pure fun s h => ⟨h.left, ?_⟩
    simpa [Expr.types] using hlabel

theorem runs_condition (hvisits : v.Visits recur) (construct : String) (line : Line) :
    v.Runs (v.At (p :: pending) spare) (checkCondition recur p construct line)
      fun _ => v.At pending (spare + 1) := by
  refine bind_recur hvisits fun ty => ?_
  split
  · exact runs_reject
  · exact .pure fun _ h => h

theorem runs_conditional (hvisits : v.Visits recur) (line : Line) (condition thenBranch : ExprId)
    (elseBranch : Option ExprId) :
    v.Runs (v.At (condition :: thenBranch :: elseBranch.toList) spare)
      (checkConditional Γ recur line condition thenBranch elseBranch) fun _ => v.Left := by
  refine Ensures.bind (runs_condition hvisits "If" line) fun _ => ?_
  refine Ensures.bind (runs_inScope (runs_recur hvisits)) fun thenTy => ?_
  cases elseBranch with
  | none => exact .pure fun _ h => h.left
  | some elseBranch =>
    exact Ensures.bind (runs_inScope (runs_recur hvisits)) fun elseTy => .pure fun _ h => h.left

theorem runs_localDefinition (hvisits : v.Visits recur) (line : Line) (name declaredType : String)
    (init scope : Option ExprId) :
    v.Runs (v.At (init.toList ++ scope.toList) spare)
      (checkLocal Γ recur line name declaredType init scope) v.Result := by
  refine bind_silent (silent_of_constant (constant_resolve ..)) fun declared => ?_
  refine bind_label fun type hlabel => ?_
  have hinit : v.Runs (v.At (init.toList ++ scope.toList) spare)
      (init.mapM fun init => checkPart Γ recur init declared line)
      fun _ => v.At scope.toList spare := by
    cases init with
    | none => exact .pure fun _ h => h
    | some init =>
      exact Ensures.bind (runs_part hvisits declared line) fun slot => .pure fun _ h => h
  refine Ensures.bind hinit fun slot => ?_
  refine Ensures.bind (?_ : v.Runs _ _ fun _ => v.At [] spare) fun ty => .pure fun s h =>
    ⟨h.left, ?_⟩
  · refine runs_inScope (bind_silent (silent_define name line declared) fun _ => ?_)
    cases scope with
    | none => exact .pure fun _ h => h
    | some scope => exact (runs_recur hvisits).mono (fun _ h => h) fun _ _ h => h.mono (by omega)
  · simpa [Expr.types] using hlabel

theorem runs_rejectVariable (name : String) (line : Line) :
    v.Runs (v.At pending spare) (rejectVariable Γ name line) post :=
  bind_silent (silent_of_constant (Step.constant_demand ..)) fun _ => runs_reject

theorem runs_assignment (hvisits : v.Visits recur) (line : Line) (target : String)
    (value : ExprId) :
    v.Runs (v.At [value] spare) (checkAssignment Γ recur line target value) v.Result := by
  refine bind_silent silent_get fun session => ?_
  split
  · exact runs_rejectVariable _ line
  · next found _ =>
    refine Ensures.bind (runs_part hvisits found.ty line) fun slot => ?_
    exact runs_plain (fun _ h => h.left) rfl

theorem runs_rejectOperand (operand : ExprId) (ty other : Ty) :
    v.Runs (v.At pending spare) (rejectOperand Γ operand ty other) post := by
  refine bind_silent (silent_node operand) fun node => ?_
  dsimp only
  split
  · exact bind_silent (silent_of_constant (constant_typeName ..)) fun _ => runs_reject
  · exact runs_reject

theorem runs_addition (hvisits : v.Visits recur) (line : Line) (lhs rhs : ExprId) :
    v.Runs (v.At [lhs, rhs] spare) (checkAddition Γ recur line lhs rhs) v.Result := by
  refine bind_recur hvisits fun lhsTy => bind_recur hvisits fun rhsTy => ?_
  -- operands of one type; a number that is added to a text, on either side; wrong operands
  split
  · exact runs_plain (fun _ h => h.left) rfl
  split
  · exact Ensures.bind (runs_wrapInCast lhs .string line) fun _ =>
      runs_plain (fun _ h => h.left) rfl
  split
  · exact Ensures.bind (runs_wrapInCast rhs .string line) fun _ =>
      runs_plain (fun _ h => h.left) rfl
  split
  · exact runs_rejectOperand _ _ _
  split
  · exact runs_rejectOperand _ _ _
  · exact runs_fault

theorem runs_binary (hvisits : v.Visits recur) (line : Line) (operator : BinaryOperator)
    (lhs rhs : ExprId) :
    v.Runs (v.At [lhs, rhs] spare) (checkBinary Γ recur line operator lhs rhs)
      fun _ => v.Left := by
  refine bind_recur hvisits fun lhsTy => bind_recur hvisits fun rhsTy => ?_
  refine bind_silent (silent_emit rfl) fun _ => ?_
  dsimp only
  split
  · exact bind_silent (silent_of_constant (constant_typeName ..)) fun _ => bind_reject
  split
  · exact bind_silent (silent_of_constant (constant_typeName ..)) fun _ => runs_reject
  · exact .pure fun _ h => h.left

theorem runs_widen (side : ExprId) :
    v.Runs (v.At pending (spare + 1)) (widen Γ side) fun _ => v.At pending spare :=
  bind_silent (silent_node side) fun node => runs_wrapInCast side _ node.line

theorem runs_equality (hvisits : v.Visits recur) (line : Line) (lhs rhs : ExprId) :
    v.Runs (v.At [lhs, rhs] spare) (checkEquality Γ recur line lhs rhs)
      fun expr s => v.Left s ∧ expr.types = [] := by
  refine bind_recur hvisits fun lhsTy => bind_recur hvisits fun rhsTy => ?_
  -- neither side is wrapped, or one of them
  have hsame : v.Runs (v.At [] (spare + 1 + 1)) (pure (Form.equality lhs rhs))
      fun expr s => v.Left s ∧ Expr.types expr = [] := .pure fun _ h => ⟨h.left, rfl⟩
  have hlhs {step : Body ExprId}
      (hstep : v.Runs (v.At [] (spare + 1 + 1)) step fun _ => v.At [] (spare + 1)) :
      v.Runs (v.At [] (spare + 1 + 1)) (do return Form.equality (← step) rhs)
        fun expr s => v.Left s ∧ Expr.types expr = [] :=
    Ensures.bind hstep fun _ => .pure fun _ h => ⟨h.left, rfl⟩
  have hrhs {step : Body ExprId}
      (hstep : v.Runs (v.At [] (spare + 1 + 1)) step fun _ => v.At [] (spare + 1)) :
      v.Runs (v.At [] (spare + 1 + 1)) (do return Form.equality lhs (← step))
        fun expr s => v.Left s ∧ Expr.types expr = [] :=
    Ensures.bind hstep fun _ => .pure fun _ h => ⟨h.left, rfl⟩
  split
  · exact hsame
  split
  · exact hlhs (runs_wrapInCast lhs .string line)
  split
  · exact hrhs (runs_wrapInCast rhs .string line)
  split
  · exact runs_reject
  split
  · exact hsame
  split
  · exact hlhs (runs_widen lhs)
  split
  · exact hrhs (runs_widen rhs)
  · exact hsame

theorem runs_symbol (line : Line) (name : String) :
    v.Runs (v.At pending spare) (checkSymbol Γ line name) v.Result := by
  refine bind_silent silent_get fun session => ?_
  split
  · exact runs_plain (fun _ h => h.left) rfl
  · split
    · exact runs_plain (fun _ h => h.left) rfl
    · exact runs_rejectVariable name line

/-- The rule for the form of an expression keeps within its means, with one node in hand. -/
theorem runs_rule (hvisits : v.Visits recur) (line : Line) (expr : Expr) :
    v.Runs (v.At expr.children (spare + 1)) (elaborate Γ recur line expr) v.Result := by
  -- nodes are appended for conversions, and for the receiver of a dispatch that names none
  cases expr with
  | block items =>
    exact Ensures.bind (runs_items hvisits .noValue items) fun ty =>
      runs_plain (fun _ h => h.left) rfl
  | localDefinition name typeName init scope type =>
    exact runs_localDefinition hvisits line name typeName init scope
  | dispatch receiver name args ref => exact runs_dispatch hvisits line receiver name args
  | staticDispatch receiver target name args type ref =>
    exact runs_staticDispatch hvisits line receiver target name args
  | conditional condition thenBranch elseBranch =>
    exact Ensures.bind (runs_conditional hvisits line condition thenBranch elseBranch) fun ty =>
      runs_plain (fun _ h => h) rfl
  | whileLoop condition body =>
    refine Ensures.bind (runs_condition hvisits "While" line) fun _ => ?_
    exact Ensures.bind (runs_inScope (runs_recur hvisits)) fun _ =>
      runs_plain (fun _ h => h.left) rfl
  | cast typeName operand =>
    rw [elaborate]
    split
    · exact bind_recur hvisits fun _ => runs_plain (fun _ h => h.left) rfl
    · exact bind_silent (silent_emit rfl) fun _ => runs_plain (fun _ h => h.left) rfl
  | newObject typeName =>
    refine bind_silent (silent_of_constant (constant_resolve ..)) fun ty => ?_
    dsimp only
    split
    · exact bind_reject
    · exact runs_plain (fun _ h => h.left) rfl
  | substring subject first last =>
    refine bind_recur hvisits fun _ => bind_recur hvisits fun _ => bind_recur hvisits fun _ => ?_
    dsimp only
    split
    · exact bind_silent (silent_emit rfl) fun _ => runs_plain (fun _ h => h.left) rfl
    · exact runs_plain (fun _ h => h.left) rfl
  | assignment target value ref => exact runs_assignment hvisits line target value
  | addition lhs rhs => exact runs_addition hvisits line lhs rhs
  | binary operator lhs rhs =>
    exact Ensures.bind (runs_binary hvisits line operator lhs rhs) fun _ =>
      runs_plain (fun _ h => h) rfl
  | unary operator operand =>
    refine bind_recur hvisits fun ty => ?_
    dsimp only
    split
    · exact bind_silent (silent_emit rfl) fun _ => runs_plain (fun _ h => h.left) rfl
    · exact runs_plain (fun _ h => h.left) rfl
  | equality lhs rhs =>
    refine Ensures.bind (runs_equality hvisits line lhs rhs) fun expr => .pure fun s h => ⟨h.1, ?_⟩
    simp [h.2]
  | symbol name ref => exact runs_symbol line name
  | intConstant value => exact runs_plain (fun _ h => h.left) rfl
  | stringConstant value => exact runs_plain (fun _ h => h.left) rfl
  | voidConstant => exact runs_plain (fun _ h => h.left) rfl

end Rules

end Ledger

/-! ### Trees -/

variable {ι : Type} {mark : ExprId → ι} {Γ : Context} {s : Session} {id : ExprId} {t : Term ι}
variable {ids : List ExprId}

/-- The check of a tree goes into its nodes at most once each, and appends less than two nodes for
each of them. -/
theorem advances_checkBelow (depth : Nat) (hread : s.arena.Reads mark id t ids)
    (hnodup : ids.Nodup) :
    Advances Γ.registry ids (2 * ids.length - 1) s ((checkBelow Γ depth id).runFrom s).2 := by
  induction depth generalizing s id t ids with
  | zero => exact (Advances.of_eq rfl rfl).mono List.nil_subperm (Nat.zero_le _)
  | succ depth ih =>
    obtain ⟨line, type, own, form, rfl, rfl, hget, hparts⟩ := hread.exists_form
    obtain ⟨hid, hown⟩ := List.nodup_cons.mp hnodup
    have hlt : ∀ x ∈ own, x.index < s.arena.size :=
      fun x hx => hread.lt_size x (List.mem_cons_of_mem id hx)
    set entered : Session :=
      { s with log := s.log.push (.exprVisited (form.map Prod.fst).kind id line) } with hentered
    let v : Ledger Γ.registry := ⟨entered, s.arena.Readable mark, own, 1, hown, hlt⟩
    have hvisits : v.Visits (checkBelow Γ depth) := Ledger.visits_of_own rfl ih
    have hat : v.At (form.map Prod.fst).children 1 entered := by
      refine v.at_start ?_
      rw [Form.children_map, Jointly.map_iff]
      exact hparts.mono fun part _ own _ h => ⟨part.2, h⟩
    have hvisit : Advances Γ.registry [id] 0 s entered := by
      refine ⟨⟨[id], ?_, .refl _⟩, le_rfl, le_rfl, fun _ _ _ => rfl, fun _ h => .inl h⟩
      rw [hentered, Event.visits_push]
      rfl
    have hrule : Ensures (fun s' => s' = entered)
        (elaborate Γ (checkBelow Γ depth) line (form.map Prod.fst)) v.Result fun _ => v.Left :=
      (Ledger.runs_rule hvisits line _).mono (fun _ h => h ▸ hat) fun _ _ h => h
    -- whatever the rule leaves, the node itself comes on top
    have hleft {s' : Session} (h : v.Left s') :
        Advances Γ.registry (id :: own) (2 * (id :: own).length - 1) s s' := by
      refine (hvisit.trans h).mono (.refl _) ?_
      simp only [v, List.length_cons]
      omega
    refine Ensures.final
      ((ensures_checkBelow_succ hget hrule (fun _ _ h _ => h.1) ?_ ?_).mono_failed
      fun _ _ h => hleft h) rfl
    · -- the node is not below its own parts, so it is still there to be written
      intro r s' h
      rw [h.1.get?_eq id (Arena.lt_of_get? hget) hid]
      exact hget
    · intro expr ty type' s' h hlabel
      refine (hleft h.1).record List.mem_cons_self ?_
      rw [Node.types, List.forall_mem_append]
      refine ⟨h.2, ?_⟩
      simpa using ⟨ty, hlabel⟩

theorem advances_checkExpr (hread : s.arena.Reads mark id t ids) (hnodup : ids.Nodup) :
    Advances Γ.registry ids (2 * ids.length - 1) s ((checkExpr Γ id).runFrom s).2 := by
  rw [checkExpr, Step.runFrom_bind_of_ok (Step.runFrom_get s)]
  exact advances_checkBelow _ hread hnodup

end Body

namespace Expectation

open Body

variable {ι : Type} {mark : ExprId → ι} {s : Session} {root : ExprId} {t : Term ι}
variable {ids : List ExprId}

/-- The check of a root appends two nodes at most for each node of its tree. -/
theorem advances_check (Γ : Context) (hread : s.arena.Reads mark root t ids) (hnodup : ids.Nodup)
    (e : Expectation) :
    Session.Advances Γ.registry ids (2 * ids.length) s ((e.check Γ root).runFrom s).2 := by
  let v : Ledger Γ.registry := ⟨s, s.arena.Readable mark, ids, 0, hnodup, hread.lt_size⟩
  have hvisits : v.Visits (checkExpr Γ) := Ledger.visits_of_own rfl advances_checkExpr
  have hat : v.At [root] 0 s := v.at_start (Jointly.singleton_iff.mpr ⟨t, hread⟩)
  have hcheck : v.Runs (v.At [root] 0) (e.check Γ root) fun _ => v.At [] 0 := by
    cases e with
    | anything =>
      exact Ledger.bind_recur hvisits fun ty => .pure fun _ h => h.mono (by omega)
    | initial ty site => exact Ledger.runs_part hvisits ty site
    | returned ty line =>
      refine Ledger.bind_recur hvisits fun source => ?_
      refine Ledger.bind_silent (silent_node root) fun node => ?_
      dsimp only
      split
      · split
        · exact Ledger.runs_wrapInCast root _ line
        · exact Ledger.runs_convert root source ty node.line
      · exact Ledger.runs_convert root source ty node.line
  exact (hcheck.mono (fun _ h => h) fun _ _ h => h.left).final hat

end Expectation

end Lcpl

import Mathlib.Data.Set.Insert
import Lcpl.Proofs.Lockstep
import Lcpl.Proofs.Arena.Reachable
import Lcpl.Proofs.Body.Simulation
import Lcpl.Proofs.Tree.Bare

/-!
# Annotations are never read

Two sessions that differ in annotations are checked alike: both checks succeed with the same type,
or both fail for the same reason, and in either case the sessions still differ in annotations only.
Where the checks succeed, they leave no difference: all annotations of the nodes that were checked
are written anew, and the two checks write the same.

The nodes that are the same in both sessions are kept track of, by a set that contains with a node
all the parts that are checked with it.

## Main definitions

* `Form.checked` — the parts of an expression that are checked with it
* `Arena.Agrees` — a set of nodes that are the same in two arenas, parts included
* `Session.Alike` — sessions that differ in annotations, and not at all in given nodes
* `Body.Blind` — a step that ends alike from alike sessions

## Main results

* `Body.blind_elaborate` — the rule for every form is blind
* `Body.blind_checkExpr` — so is the check of an expression, and the expression is the same after it
-/

namespace Lcpl

/-- The parts that are checked with an expression: all of them, unless it is a cast to an unknown
type. -/
def Form.checked {κ : Type} (registry : Registry) (form : Form κ) : Set κ :=
  {part | part ∈ form.children ∧
    ∀ typeName operand, form = cast typeName operand → (registry.resolve? typeName).isSome}

/-- The nodes in the set are the same in both arenas, and with a node the set has all the parts that
are checked with it. -/
structure Arena.Agrees (registry : Registry) (same : Set ExprId) (a b : Arena) : Prop where
  get?_eq : ∀ id ∈ same, a.get? id = b.get? id
  parts : ∀ id ∈ same, ∀ node, a.get? id = some node → node.expr.checked registry ⊆ same

namespace Arena.Agrees

variable {registry : Registry} {same : Set ExprId} {a b : Arena} {id x : ExprId} {node : Node}

theorem empty (registry : Registry) (a b : Arena) : Agrees registry ∅ a b := ⟨nofun, nofun⟩

/-- What is reached from a node in the set is in the set. -/
theorem mem_of_reachable (h : Agrees registry same a b) (hid : id ∈ same)
    (hx : a.Reachable registry id x) : x ∈ same := by
  induction hx with
  | root => exact hid
  | part _ hget hchild hcast ih => exact h.parts _ ih _ hget ⟨hchild, hcast⟩

/-- A new node joins the set, if its parts are in it. -/
theorem alloc (h : Agrees registry same a b) (hsize : a.size = b.size)
    (hparts : node.expr.checked registry ⊆ same) :
    Agrees registry (insert a.next same) (a.alloc node) (b.alloc node) := by
  have hnext : a.next = b.next := congrArg ExprId.mk hsize
  constructor
  · intro id hid
    rw [get?_alloc, get?_alloc, ← hnext]
    by_cases hnew : id = a.next
    · rw [if_pos hnew, if_pos hnew]
    · rw [if_neg hnew, if_neg hnew]
      exact h.get?_eq id (hid.resolve_left hnew)
  · intro id hid n hn
    rw [get?_alloc] at hn
    by_cases hnew : id = a.next
    · rw [if_pos hnew] at hn
      rw [← Option.some_inj.mp hn]
      exact hparts.trans (Set.subset_insert _ _)
    · rw [if_neg hnew] at hn
      exact (h.parts id (hid.resolve_left hnew) n hn).trans (Set.subset_insert _ _)

/-- A node that is written anew joins the set, if its parts are in it. -/
theorem set (h : Agrees registry same a b) (hsize : a.size = b.size)
    (hparts : node.expr.checked registry ⊆ same) :
    Agrees registry (insert id same) (a.set id node) (b.set id node) := by
  constructor
  · intro x hx
    rw [get?_set, get?_set, ← hsize]
    by_cases hset : x = id ∧ id.index < a.size
    · rw [if_pos hset, if_pos hset]
    · rw [if_neg hset, if_neg hset]
      rcases hx with rfl | hx
      · -- a handle without a node
        have hnone (c : Arena) (hc : a.size = c.size) : c.get? x = none := by
          rw [get?, Array.getElem?_eq_none_iff]
          exact Nat.le_of_not_lt fun hlt => hset ⟨rfl, hc ▸ hlt⟩
        rw [hnone a rfl, hnone b hsize]
      · exact h.get?_eq x hx
  · intro x hx n hn
    rw [get?_set] at hn
    by_cases hset : x = id ∧ id.index < a.size
    · rw [if_pos hset] at hn
      rw [← Option.some_inj.mp hn]
      exact hparts.trans (Set.subset_insert _ _)
    · rw [if_neg hset] at hn
      rcases hx with rfl | hx
      · exact absurd ⟨rfl, (Array.getElem?_eq_some_iff.mp hn).1⟩ hset
      · exact (h.parts x hx n hn).trans (Set.subset_insert _ _)

end Arena.Agrees

/-- The sessions differ in annotations only, and the given nodes are the same in both. -/
structure Session.Alike (registry : Registry) (known : Set ExprId) (s t : Session) : Prop where
  arena : s.arena.bare = t.arena.bare
  scopes : s.scopes = t.scopes
  log : s.log = t.log
  agrees : ∃ same, known ⊆ same ∧ s.arena.Agrees registry same t.arena

namespace Session.Alike

variable {registry : Registry} {known known' : Set ExprId} {s t : Session}

theorem mono (h : Alike registry known s t) (hsubset : known' ⊆ known) :
    Alike registry known' s t := by
  obtain ⟨same, hsame, hagrees⟩ := h.agrees
  exact ⟨h.arena, h.scopes, h.log, same, hsubset.trans hsame, hagrees⟩

theorem left (h : Alike registry known s t) : Alike registry ∅ s t := h.mono (Set.empty_subset _)

end Session.Alike

namespace Body

open Step (Lockstep)

variable {α β : Type}

/-- From alike sessions the step ends alike, with the same value. Before it the nodes `known` are
the same in both sessions, and after it the nodes `known' value`. -/
def Blind (registry : Registry) (known : Set ExprId) (step : Body α)
    (known' : α → Set ExprId) : Prop :=
  Lockstep (Session.Alike registry ∅) (Session.Alike registry known) step step
    fun a b s t => a = b ∧ Session.Alike registry (known' a) s t

namespace Blind

variable {registry : Registry} {known : Set ExprId} {known' : α → Set ExprId}
variable {known'' : β → Set ExprId} {step : Body α} {next : α → Body β}

protected theorem pure {a : α} (h : known' a ⊆ known) : Blind registry known (pure a) known' :=
  Lockstep.pure fun _ _ hst => ⟨rfl, hst.mono h⟩

protected theorem reject {error : SemanticError} {line : Line} :
    Blind registry known (Step.reject error line : Body α) known' :=
  Lockstep.reject fun _ _ hst => hst.left

protected theorem fault {f : Fault} : Blind registry known (Step.fault f : Body α) known' :=
  Lockstep.fault fun _ _ hst => hst.left

protected theorem bind (h : Blind registry known step known')
    (hnext : ∀ a, Blind registry (known' a) (next a) known'') :
    Blind registry known (step >>= next) known'' := by
  refine Lockstep.bind h fun a b => ?_
  refine Lockstep.of_pre (fun s t hst => hst.1) ?_
  rintro rfl
  exact (hnext a).mono (fun s t hst => hst.2) fun _ _ _ _ h => h

theorem mono (h : Blind registry known step known') {known'' : α → Set ExprId}
    (hsubset : ∀ a, known'' a ⊆ known' a) : Blind registry known step known'' :=
  Lockstep.mono h (fun _ _ hst => hst) fun a _ _ _ h => ⟨h.1, h.2.mono (hsubset a)⟩

/-- A step without state. -/
theorem of_constant {result : Except Failure α} (h : Step.Constant step result) :
    Blind registry known step fun _ => known := by
  intro s t hst
  rw [h.runFrom_eq, h.runFrom_eq]
  cases result with
  | error failure => exact ⟨rfl, hst.left⟩
  | ok a => exact ⟨rfl, hst⟩

/-- A failure in the middle of a rule. -/
theorem bind_reject {error : SemanticError} {line : Line} :
    Blind registry known (Step.reject error line >>= next) known'' :=
  Lockstep.bind_reject fun _ _ hst => hst.left

end Blind

/-! ### Nodes and scopes -/

section

variable {registry : Registry} {known : Set ExprId} {known' : α → Set ExprId}

theorem blind_emit (event : Event) : Blind registry known (emit event) fun _ => known := by
  intro s t hst
  exact ⟨rfl, hst.arena, hst.scopes, congrArg (·.push event) hst.log, hst.agrees⟩

theorem blind_define (name : String) (line : Line) (ty : Ty) :
    Blind registry known (define name line ty) fun _ => known := by
  intro s t hst
  exact ⟨rfl, hst.arena, congrArg (·.define name (.letBound name line ty)) hst.scopes, hst.log,
    hst.agrees⟩

/-- The nodes of a handle differ in annotations only. -/
theorem lockstep_node (id : ExprId) :
    Lockstep (Session.Alike registry ∅) (Session.Alike registry known) (node id) (node id)
      fun n n' s t => n.bare = n'.bare ∧ Session.Alike registry known s t := by
  intro s t hst
  have hget : (s.arena.get? id).map Node.bare = (t.arena.get? id).map Node.bare := by
    rw [← Arena.get?_bare, hst.arena, Arena.get?_bare]
  unfold node
  rw [Step.runFrom_bind_of_ok (Step.runFrom_get s), Step.runFrom_bind_of_ok (Step.runFrom_get t)]
  cases hs : s.arena.get? id with
  | none =>
    rw [hs] at hget
    rw [Option.map_eq_none_iff.mp hget.symm]
    exact ⟨rfl, hst.left⟩
  | some n =>
    rw [hs, Option.map_some] at hget
    obtain ⟨n', hn', hbare⟩ := Option.map_eq_some_iff.mp hget.symm
    rw [hn']
    exact ⟨hbare.symm, hst⟩

/-- Of a node, only the line is used. -/
theorem blind_line {id : ExprId} {next : Node → Body α}
    (hline : ∀ n n' : Node, n.line = n'.line → next n = next n')
    (h : ∀ n, Blind registry known (next n) known') :
    Blind registry known (node id >>= next) known' := by
  refine Lockstep.bind (lockstep_node id) fun n n' => ?_
  refine Lockstep.of_pre (fun s t hst => hline n n' (Node.line_eq_of_bare hst.1)) fun hnext => ?_
  rw [hnext]
  exact Lockstep.mono (h n') (fun s t hst => hst.2) fun _ _ _ _ h => h

theorem blind_alloc (line : Line) {expr : Expr} (type : TypeName)
    (hparts : expr.checked registry ⊆ known) :
    Blind registry known (alloc line expr type) fun id => insert id known := by
  intro s t hst
  have hsize := Arena.size_eq_of_bare hst.arena
  obtain ⟨same, hsame, hagrees⟩ := hst.agrees
  refine ⟨congrArg ExprId.mk hsize, ?_, hst.scopes, hst.log, insert s.arena.next same,
    Set.insert_subset_insert hsame, hagrees.alloc hsize (hparts.trans hsame)⟩
  rw [Arena.bare_alloc, Arena.bare_alloc, hst.arena]

theorem blind_record {id : ExprId} {expr : Expr} (type : TypeName)
    (hparts : expr.checked registry ⊆ known) :
    Blind registry known (record id expr type) fun _ => insert id known := by
  refine Lockstep.bind (lockstep_node id) fun n n' => ?_
  rintro s t ⟨hbare, hst⟩
  obtain ⟨same, hsame, hagrees⟩ := hst.agrees
  refine ⟨rfl, ?_, hst.scopes, hst.log, insert id same, Set.insert_subset_insert hsame, ?_⟩
  · change (s.arena.set id _).bare = (t.arena.set id _).bare
    rw [Arena.bare_set, Arena.bare_set, hst.arena, Node.line_eq_of_bare hbare]
  · rw [Node.line_eq_of_bare hbare]
    exact hagrees.set (Arena.size_eq_of_bare hst.arena) (hparts.trans hsame)

theorem blind_inScope {step : Body α} (h : Blind registry known step known') :
    Blind registry known (inScope step) known' := by
  intro s t hst
  have henter : Session.Alike registry known { s with scopes := s.scopes.enter }
      { t with scopes := t.scopes.enter } :=
    ⟨hst.arena, congrArg Scopes.enter hst.scopes, hst.log, hst.agrees⟩
  -- the scope is left after a failure as well, and leaving it may itself fail
  rcases (h _ _ henter).cases with
    ⟨a, b, s', t', hs, ht, rfl, hst'⟩ | ⟨failure, s', t', hs, ht, hst'⟩
  · cases hleave : t'.scopes.leave? with
    | none =>
      rw [runFrom_inScope_of_none hs (hst'.scopes ▸ hleave), runFrom_inScope_of_none ht hleave]
      exact ⟨rfl, hst'.left⟩
    | some scopes =>
      rw [runFrom_inScope hs (hst'.scopes ▸ hleave), runFrom_inScope ht hleave]
      exact ⟨rfl, hst'.arena, rfl, hst'.log, hst'.agrees⟩
  · cases hleave : t'.scopes.leave? with
    | none =>
      rw [runFrom_inScope_of_none hs (hst'.scopes ▸ hleave), runFrom_inScope_of_none ht hleave]
      exact ⟨rfl, hst'⟩
    | some scopes =>
      rw [runFrom_inScope hs (hst'.scopes ▸ hleave), runFrom_inScope ht hleave]
      exact ⟨rfl, hst'.arena, rfl, hst'.log, hst'.agrees⟩

/-- Of the session, only the local definitions in force are used. -/
theorem blind_get {next : Session → Body α}
    (hscopes : ∀ s t : Session, s.scopes = t.scopes → next s = next t)
    (h : ∀ s, Blind registry known (next s) known') :
    Blind registry known (get >>= next) known' := by
  intro s t hst
  rw [Step.runFrom_bind_of_ok (Step.runFrom_get s), Step.runFrom_bind_of_ok (Step.runFrom_get t),
    hscopes s t hst.scopes]
  exact h t s t hst

end

/-! ### Conversions -/

section Rules

variable {Γ : Context} {recur : ExprId → Body Ty} {known : Set ExprId}

theorem blind_label (ty : Ty) : Blind Γ.registry known (label Γ ty) fun _ => known :=
  .of_constant (Step.constant_demand ..)

theorem blind_typeName (ty : Ty) : Blind Γ.registry known (typeName Γ ty) fun _ => known :=
  .of_constant (constant_typeName ..)

theorem blind_resolve (name : String) (line : Line) :
    Blind Γ.registry known (resolve Γ name line) fun _ => known :=
  .of_constant (constant_resolve ..)

theorem blind_rejectVariable {known' : α → Set ExprId} (name : String) (line : Line) :
    Blind Γ.registry known (rejectVariable Γ name line) known' :=
  .bind (.of_constant (Step.constant_demand ..)) fun _ => .reject

theorem checked_cast_subset {typeName : String} {id : ExprId} (h : id ∈ known) :
    (Form.cast typeName id).checked Γ.registry ⊆ known := by
  intro part hpart
  rw [List.mem_singleton.mp hpart.1]
  exact h

theorem blind_wrapInCast {id : ExprId} (h : id ∈ known) (target : Ty) (line : Line) :
    Blind Γ.registry known (wrapInCast Γ id target line) fun c => insert c known := by
  refine .bind (blind_label target) fun type => ?_
  refine .bind (blind_alloc line type (checked_cast_subset h)) fun c => ?_
  exact .bind (blind_emit _) fun _ => .pure subset_rfl

theorem blind_castLine (id : ExprId) (source : Ty) (site : Line) :
    Blind Γ.registry known (castLine id source site) fun _ => known := by
  unfold castLine
  split
  · exact .pure subset_rfl
  · exact blind_line (fun n n' h => by rw [h]) fun _ => .pure subset_rfl

theorem blind_convert {id : ExprId} (h : id ∈ known) (source target : Ty) (site : Line) :
    Blind Γ.registry known (convert Γ id source target site) fun c => insert c known := by
  unfold convert
  split
  · exact .pure (Set.insert_subset h subset_rfl)
  · exact .bind (blind_castLine id source site) fun line => blind_wrapInCast h _ line
  · exact .bind (blind_typeName source) fun _ => .bind (blind_typeName target) fun _ => .reject

/-! ### Parts -/

variable (hrecur : ∀ id known, Blind Γ.registry known (recur id) fun _ => insert id known)
include hrecur

omit hrecur in
/-- Items that are known one after the other are known together. -/
theorem cons_union_subset {item : ExprId} {items : List ExprId} :
    {x | x ∈ item :: items} ∪ known ⊆ {x | x ∈ items} ∪ insert item known := by
  rintro x (hx | hx)
  · rcases List.mem_cons.mp hx with rfl | hx
    · exact .inr (Set.mem_insert _ _)
    · exact .inl hx
  · exact .inr (Set.mem_insert_of_mem _ hx)

theorem blind_checkItems (ty : Ty) (items : List ExprId) :
    Blind Γ.registry known (checkItems recur ty items) fun _ => {x | x ∈ items} ∪ known := by
  induction items generalizing ty known with
  | nil => exact .pure (by simp)
  | cons item items ih =>
    exact .bind (hrecur item known) fun ty => (ih ty).mono fun _ => cons_union_subset

theorem blind_checkPart (id : ExprId) (expected : Ty) (site : Line) :
    Blind Γ.registry known (checkPart Γ recur id expected site) fun c => insert c known := by
  refine .bind (hrecur id known) fun ty => ?_
  refine (blind_convert (Set.mem_insert _ _) ty expected site).mono fun c => ?_
  exact Set.insert_subset_insert (Set.subset_insert _ _)

theorem blind_checkArgs (line : Line) (args : List ExprId) (params : List ParamDef) :
    Blind Γ.registry known (checkArgs Γ recur line args params) fun ids =>
      {x | x ∈ ids} ∪ known := by
  induction args generalizing params known with
  | nil =>
    cases params with
    | nil => exact .pure (by simp)
    | cons => exact .fault
  | cons arg args ih =>
    cases params with
    | nil => exact .fault
    | cons param params =>
      refine .bind (blind_checkPart hrecur arg param.ty line) fun c => ?_
      exact .bind (ih params) fun ids => .pure cons_union_subset

theorem blind_checkCall (line : Line) (receiver : Ty) (name : String) (args : List ExprId) :
    Blind Γ.registry known (checkCall Γ recur line receiver name args)
      fun call => {x | x ∈ call.2} ∪ known := by
  unfold checkCall
  split
  · exact .bind (blind_typeName receiver) fun _ => .reject
  · rename_i method _
    split_ifs
    · exact .bind_reject
    · exact .bind_reject
    · exact .bind_reject
    · exact .bind (blind_checkArgs hrecur line args method.params) fun _ => .pure subset_rfl

theorem blind_checkReceiver (receiver : Option ExprId) :
    Blind Γ.registry known (checkReceiver Γ recur receiver) fun r => insert r.1 known := by
  cases receiver with
  | some receiver => exact .bind (hrecur receiver known) fun _ => .pure subset_rfl
  | none =>
    refine .bind (blind_label _) fun type => ?_
    refine .bind (blind_alloc Γ.line type ?_) fun _ => .pure subset_rfl
    exact fun _ h => absurd h.1 List.not_mem_nil

theorem blind_checkCondition (condition : ExprId) (construct : String) (line : Line) :
    Blind Γ.registry known (checkCondition recur condition construct line)
      fun _ => insert condition known := by
  refine .bind (hrecur condition known) fun ty => ?_
  split_ifs
  · exact .reject
  · exact .pure subset_rfl

/-! ### Forms -/

omit hrecur in
/-- It is enough that all parts are known. -/
theorem checked_union_subset {expr : Expr} {wider : Set ExprId} (hknown : known ⊆ wider)
    (hparts : ∀ part ∈ expr.children, part ∈ wider) :
    expr.checked Γ.registry ∪ known ⊆ wider :=
  Set.union_subset (fun part hpart => hparts part hpart.1) hknown

theorem blind_checkLocal (line : Line) (name declaredType : String) (init scope : Option ExprId) :
    Blind Γ.registry known (checkLocal Γ recur line name declaredType init scope)
      fun r => r.1.checked Γ.registry ∪ known := by
  refine .bind (blind_resolve declaredType line) fun declared => ?_
  refine .bind (blind_label declared) fun type => ?_
  have hinit : Blind Γ.registry known
      (init.mapM fun init => checkPart Γ recur init declared line)
      fun init => {x | x ∈ init.toList} ∪ known := by
    cases init with
    | none => exact .pure (by simp)
    | some init =>
      refine .bind (blind_checkPart hrecur init declared line) fun c => .pure ?_
      simp
  refine .bind hinit fun init => ?_
  -- the initial value stays known while the scope is checked
  cases scope with
  | none =>
    refine .bind (blind_inScope (.bind (blind_define name line declared) fun _ => .pure subset_rfl))
      fun ty => .pure (checked_union_subset Set.subset_union_right ?_)
    intro part hpart
    exact .inl (by simpa [Form.children] using hpart)
  | some scope =>
    refine .bind (blind_inScope (.bind (blind_define name line declared) fun _ => hrecur scope _))
      fun ty => .pure (checked_union_subset ?_ ?_)
    · exact Set.subset_union_right.trans (Set.subset_insert _ _)
    · intro part hpart
      rcases List.mem_append.mp hpart with hpart | hpart
      · exact .inr (.inl hpart)
      · exact .inl (by simpa using hpart)

theorem blind_checkDispatch (line : Line) (receiver : Option ExprId) (name : String)
    (args : List ExprId) :
    Blind Γ.registry known (checkDispatch Γ recur line receiver name args)
      fun r => r.1.checked Γ.registry ∪ known := by
  refine .bind (blind_checkReceiver hrecur receiver) fun (receiver, ty) => ?_
  refine .bind (blind_checkCall hrecur line ty name args) fun (method, args) => ?_
  refine .bind (.of_constant (Visiting.constant_methodRef Γ method)) fun ref => ?_
  -- a call without receiver is given one, so the parts are the same in both cases
  exact .pure (checked_union_subset (fun x hx => cons_union_subset (.inr hx))
    fun part hpart => cons_union_subset (.inl hpart))

theorem blind_checkStaticDispatch (line : Line) (receiver : ExprId) (target name : String)
    (args : List ExprId) :
    Blind Γ.registry known (checkStaticDispatch Γ recur line receiver target name args)
      fun r => r.1.checked Γ.registry ∪ known := by
  refine .bind (hrecur receiver known) fun receiverTy => ?_
  refine .bind (blind_resolve target line) fun targetTy => ?_
  split_ifs
  · exact .bind (blind_typeName receiverTy) fun _ => .bind_reject
  refine .bind (blind_label targetTy) fun type => ?_
  refine .bind (blind_checkCall hrecur line targetTy name args) fun (method, args) => ?_
  refine .bind (.of_constant (Visiting.constant_methodRef Γ method)) fun ref => ?_
  exact .pure (checked_union_subset (fun x hx => cons_union_subset (.inr hx))
    fun part hpart => cons_union_subset (.inl hpart))

theorem blind_checkConditional (line : Line) (condition thenBranch : ExprId)
    (elseBranch : Option ExprId) :
    Blind Γ.registry known (checkConditional Γ recur line condition thenBranch elseBranch)
      fun _ => (Form.conditional condition thenBranch elseBranch).checked Γ.registry ∪ known := by
  refine .bind (blind_checkCondition hrecur condition "If" line) fun _ => ?_
  refine .bind (blind_inScope (hrecur thenBranch _)) fun thenTy => ?_
  cases elseBranch with
  | none =>
    refine .pure (checked_union_subset ?_ ?_)
    · exact (Set.subset_insert _ _).trans (Set.subset_insert _ _)
    · simp [Form.children]
  | some elseBranch =>
    refine .bind (blind_inScope (hrecur elseBranch _)) fun elseTy => ?_
    refine .pure (checked_union_subset ?_ ?_)
    · exact ((Set.subset_insert _ _).trans (Set.subset_insert _ _)).trans (Set.subset_insert _ _)
    · simp [Form.children]

theorem blind_checkAssignment (line : Line) (target : String) (value : ExprId) :
    Blind Γ.registry known (checkAssignment Γ recur line target value)
      fun r => r.1.checked Γ.registry ∪ known := by
  refine blind_get (fun s t hst => by rw [hst]) fun session => ?_
  split
  · exact blind_rejectVariable _ line
  · refine .bind (blind_checkPart hrecur value _ line) fun c => ?_
    refine .pure (checked_union_subset (Set.subset_insert _ _) ?_)
    simp [Form.children]

omit hrecur in
theorem blind_checkSymbol (line : Line) (name : String) :
    Blind Γ.registry known (checkSymbol Γ line name) fun r => r.1.checked Γ.registry ∪ known := by
  have hsymbol (ref : VarRef) : (Form.symbol name (some ref)).checked Γ.registry ∪ known ⊆ known :=
    checked_union_subset subset_rfl (List.forall_mem_nil _)
  refine blind_get (fun s t hst => by rw [hst]) fun session => ?_
  split
  · exact .pure (hsymbol _)
  · split_ifs
    · exact .pure (hsymbol _)
    · exact blind_rejectVariable name line

omit hrecur in
theorem blind_rejectOperand {known' : α → Set ExprId} (operand : ExprId) (ty other : Ty) :
    Blind Γ.registry known (rejectOperand Γ operand ty other) known' := by
  refine blind_line (fun n n' h => by rw [h]) fun n => ?_
  split_ifs
  · exact .bind (blind_typeName ty) fun _ => .reject
  · exact .reject

theorem blind_checkAddition (line : Line) (lhs rhs : ExprId) :
    Blind Γ.registry known (checkAddition Γ recur line lhs rhs)
      fun r => r.1.checked Γ.registry ∪ known := by
  refine .bind (hrecur lhs known) fun lhsTy => ?_
  refine .bind (hrecur rhs _) fun rhsTy => ?_
  split_ifs
  · exact .pure (checked_union_subset (fun _ hx => by simp [hx]) (by simp [Form.children]))
  · refine .bind (blind_wrapInCast (by simp) .string line) fun lhs => .pure ?_
    exact checked_union_subset (fun _ hx => by simp [hx]) (by simp [Form.children])
  · refine .bind (blind_wrapInCast (by simp) .string line) fun rhs => .pure ?_
    exact checked_union_subset (fun _ hx => by simp [hx]) (by simp [Form.children])
  · exact blind_rejectOperand lhs lhsTy rhsTy
  · exact blind_rejectOperand rhs rhsTy lhsTy
  · exact .fault

theorem blind_checkBinary (line : Line) (operator : BinaryOperator) (lhs rhs : ExprId) :
    Blind Γ.registry known (checkBinary Γ recur line operator lhs rhs)
      fun _ => insert rhs (insert lhs known) := by
  refine .bind (hrecur lhs known) fun lhsTy => ?_
  refine .bind (hrecur rhs _) fun rhsTy => ?_
  refine .bind (blind_emit _) fun _ => ?_
  split_ifs
  · exact .bind (blind_typeName lhsTy) fun _ => .bind_reject
  · exact .bind (blind_typeName rhsTy) fun _ => .reject
  · exact .bind (blind_typeName lhsTy) fun _ => .bind_reject
  · exact .pure subset_rfl

omit hrecur in
theorem blind_widen {side : ExprId} (h : side ∈ known) :
    Blind Γ.registry known (widen Γ side) fun c => insert c known :=
  blind_line (fun n n' h => by rw [h]) fun n => blind_wrapInCast h _ n.line

theorem blind_checkEquality (line : Line) (lhs rhs : ExprId) :
    Blind Γ.registry known (checkEquality Γ recur line lhs rhs)
      fun expr => expr.checked Γ.registry ∪ known := by
  refine .bind (hrecur lhs known) fun lhsTy => ?_
  refine .bind (hrecur rhs _) fun rhsTy => ?_
  -- whichever side is converted, the slots of the result have been visited or made
  have hplain : (Form.equality lhs rhs).checked Γ.registry ∪ known ⊆
      insert rhs (insert lhs known) :=
    checked_union_subset (fun _ hx => by simp [hx]) (by simp [Form.children])
  have hleft (c : ExprId) : (Form.equality c rhs).checked Γ.registry ∪ known ⊆
      insert c (insert rhs (insert lhs known)) :=
    checked_union_subset (fun _ hx => by simp [hx]) (by simp [Form.children])
  have hright (c : ExprId) : (Form.equality lhs c).checked Γ.registry ∪ known ⊆
      insert c (insert rhs (insert lhs known)) :=
    checked_union_subset (fun _ hx => by simp [hx]) (by simp [Form.children])
  split_ifs
  · exact .pure hplain
  · exact .bind (blind_wrapInCast (by simp) .string line) fun c => .pure (hleft c)
  · exact .bind (blind_wrapInCast (by simp) .string line) fun c => .pure (hright c)
  · exact .reject
  · exact .pure hplain
  · exact .bind (blind_widen (by simp)) fun c => .pure (hleft c)
  · exact .bind (blind_widen (by simp)) fun c => .pure (hright c)
  · exact .pure hplain

/-- The rule for every form is blind. The parts of the annotated form are the same after it. -/
theorem blind_elaborate (line : Line) (expr : Expr) :
    Blind Γ.registry known (elaborate Γ recur line expr)
      fun r => r.1.checked Γ.registry ∪ known := by
  cases expr with
  | block items =>
    refine .bind (blind_checkItems hrecur .noValue items) fun ty => ?_
    exact .pure (checked_union_subset Set.subset_union_right fun part hpart => .inl hpart)
  | localDefinition name typeName init scope _ =>
    exact blind_checkLocal hrecur line name typeName init scope
  | dispatch receiver name args _ => exact blind_checkDispatch hrecur line receiver name args
  | staticDispatch receiver target name args _ _ =>
    exact blind_checkStaticDispatch hrecur line receiver target name args
  | conditional condition thenBranch elseBranch =>
    exact .bind (blind_checkConditional hrecur line condition thenBranch elseBranch) fun _ =>
      .pure subset_rfl
  | whileLoop condition body =>
    refine .bind (blind_checkCondition hrecur condition "While" line) fun _ => ?_
    refine .bind (blind_inScope (hrecur body _)) fun _ => ?_
    exact .pure (checked_union_subset (fun _ hx => by simp [hx]) (by simp [Form.children]))
  | cast typeName operand =>
    simp only [elaborate]
    cases hresolve : Γ.registry.resolve? typeName with
    | some target =>
      refine .bind (hrecur operand known) fun _ => ?_
      exact .pure (checked_union_subset (Set.subset_insert _ _) (by simp [Form.children]))
    | none =>
      -- the operand stays as it is, and nothing is known of it
      refine .bind (blind_emit _) fun _ => .pure (Set.union_subset ?_ subset_rfl)
      intro part hpart
      have hsome := hpart.2 typeName operand rfl
      simp [hresolve] at hsome
  | newObject typeName =>
    refine .bind (blind_resolve typeName line) fun ty => ?_
    split_ifs
    · exact .bind_reject
    · exact .pure (checked_union_subset subset_rfl (List.forall_mem_nil _))
  | substring subject first last =>
    refine .bind (hrecur subject known) fun _ => ?_
    refine .bind (hrecur first _) fun firstTy => ?_
    refine .bind (hrecur last _) fun lastTy => ?_
    have hparts : (Form.substring subject first last).checked Γ.registry ∪ known ⊆
        insert last (insert first (insert subject known)) :=
      checked_union_subset (fun _ hx => by simp [hx]) (by simp [Form.children])
    split_ifs
    · exact .bind (blind_emit _) fun _ => .pure hparts
    · exact .pure hparts
  | assignment target value _ => exact blind_checkAssignment hrecur line target value
  | addition lhs rhs => exact blind_checkAddition hrecur line lhs rhs
  | binary operator lhs rhs =>
    refine .bind (blind_checkBinary hrecur line operator lhs rhs) fun _ => ?_
    exact .pure (checked_union_subset (fun _ hx => by simp [hx]) (by simp [Form.children]))
  | unary operator operand =>
    refine .bind (hrecur operand known) fun ty => ?_
    have hparts : (Form.unary operator operand).checked Γ.registry ∪ known ⊆ insert operand known :=
      checked_union_subset (Set.subset_insert _ _) (by simp [Form.children])
    split_ifs
    · exact .bind (blind_emit _) fun _ => .pure hparts
    · exact .pure hparts
  | equality lhs rhs =>
    exact .bind (blind_checkEquality hrecur line lhs rhs) fun _ => .pure subset_rfl
  | symbol name _ => exact blind_checkSymbol line name
  | intConstant value => exact .pure (checked_union_subset subset_rfl (List.forall_mem_nil _))
  | stringConstant value => exact .pure (checked_union_subset subset_rfl (List.forall_mem_nil _))
  | voidConstant => exact .pure (checked_union_subset subset_rfl (List.forall_mem_nil _))

omit hrecur in
/-- A rule does not look at the annotations of its node. -/
theorem elaborate_bare (line : Line) (expr : Expr) :
    elaborate Γ recur line expr.bare = elaborate Γ recur line expr := by
  cases expr <;> rfl

end Rules

/-! ### Expressions -/

section Expressions

variable {Γ : Context} {known : Set ExprId}

theorem blind_checkBelow (depth : Nat) (id : ExprId) :
    Blind Γ.registry known (checkBelow Γ depth id) fun _ => insert id known := by
  induction depth generalizing id known with
  | zero => exact .fault
  | succ depth ih =>
    refine Lockstep.bind (lockstep_node id) fun n n' => ?_
    refine Lockstep.of_pre (fun s t hst => hst.1) fun hbare => ?_
    -- the rule sees the kind, the line and the bare form of its node, and these are the same
    have hexpr := Node.expr_bare_eq_of_bare hbare
    have hkind : n.expr.kind = n'.expr.kind := by
      rw [← Form.kind_bare, hexpr, Form.kind_bare]
    dsimp only
    rw [hkind, Node.line_eq_of_bare hbare, ← elaborate_bare n'.line n.expr, hexpr, elaborate_bare]
    refine Lockstep.mono (?_ : Blind Γ.registry known _ fun _ => insert id known)
      (fun s t hst => hst.2) fun _ _ _ _ h => h
    refine .bind (blind_emit _) fun _ => ?_
    refine .bind (blind_elaborate (fun id _ => ih id) n'.line n'.expr) fun r => ?_
    refine .bind (blind_label r.2) fun type => ?_
    refine .bind (blind_record type Set.subset_union_left) fun _ => .pure ?_
    exact Set.insert_subset_insert Set.subset_union_right

theorem blind_checkExpr (id : ExprId) :
    Blind Γ.registry known (checkExpr Γ id) fun _ => insert id known := by
  intro s t hst
  -- the depth is taken from the number of nodes
  unfold checkExpr
  rw [Step.runFrom_bind_of_ok (Step.runFrom_get s), Step.runFrom_bind_of_ok (Step.runFrom_get t),
    Arena.size_eq_of_bare hst.arena]
  exact blind_checkBelow _ id s t hst

theorem blind_checkAgainst (root : ExprId) (expected : Ty) (site : Line) :
    Blind Γ.registry known (checkAgainst Γ root expected site) fun c => insert c known :=
  blind_checkPart (fun id _ => blind_checkExpr id) root expected site

theorem blind_checkReturn (body : ExprId) (returnTy : Ty) (line : Line) :
    Blind Γ.registry known (checkReturn Γ body returnTy line) fun c => insert c known := by
  refine .bind (blind_checkExpr body) fun ty => ?_
  refine blind_line (fun n n' h => by rw [h]) fun n => ?_
  have hbody : body ∈ insert body known := Set.mem_insert _ _
  have hknown (c : ExprId) : insert c known ⊆ insert c (insert body known) :=
    Set.insert_subset_insert (Set.subset_insert _ _)
  split
  · split_ifs
    · exact (blind_wrapInCast hbody _ line).mono hknown
    · exact (blind_convert hbody ty returnTy n.line).mono hknown
  · exact (blind_convert hbody ty returnTy n.line).mono hknown

end Expressions

end Body

end Lcpl

import Mathlib.Data.List.TakeWhile
import Lcpl.Proofs.Arena.Annotates
import Lcpl.Proofs.Ensures
import Lcpl.Proofs.Body.Root

/-!
# The check of a body annotates

Each rule is followed with what it has done so far: the parts that were visited are annotated and
record their types, those that wait are as they were, and every new node is a cast or a receiver
that may be made. The scopes play no part in this.

## Main definitions

* `Site` — the node that a rule works on, by its parts and the nodes below them
* `Site.At`, `Site.Left` — what holds while a rule runs, and after it has failed
* `Site.Runs` — a step from such a state to such a state

## Main results

* `Site.runs_rule` — the rule for every form
* `Body.annotates_checkBelow` — the check of a node annotates the nodes that it reaches
* `Expectation.annotates_check` — the check of a root, whose slot may be pointed at a cast
-/

namespace Lcpl

namespace Body

open Step (Ensures)

/-- The parts of an expression that its rule visits: not that of a cast to an unknown type. -/
def entered (registry : Registry) : Expr → List ExprId
  | .cast typeName operand => if (registry.resolve? typeName).isSome then [operand] else []
  | expr => expr.children

/-- The parts of a node that a rule visits, each with the nodes below it and those among them that
are reached. No two parts have a node below them together. -/
structure Site where
  Γ : Context
  base : Arena
  parts : List ExprId
  own : ExprId → ExprId → Prop
  reach : ExprId → ExprId → Prop
  reach_self : ∀ p, reach p p
  own_of_reach : ∀ {p x}, reach p x → own p x
  lt_size : ∀ {p x}, p ∈ parts → own p x → x.index < base.size
  apart : parts.Pairwise fun p q => ∀ x, own p x → ¬ own q x
  rooted : Γ.registry.UnderObject

namespace Site

variable (v : Site)

/-- The nodes that are reached from given parts, in the body of the current class. -/
def touched (parts : List ExprId) (x : ExprId) (k : ClassId) : Prop :=
  k = v.Γ.currentClass ∧ ∃ p ∈ parts, v.reach p x

/-- What holds while a rule runs. The visited parts come with their types, and `Φ` is what is known
of the new nodes. -/
structure At (visited : List (ExprId × Ty)) (pending : List ExprId) (Φ : Arena → Prop) (b : Arena) :
    Prop where
  split : v.parts = visited.map Prod.fst ++ pending
  annotates : v.base.Annotates v.Γ.registry (v.touched (visited.map Prod.fst)) b
  records : ∀ part ∈ visited, b.Records v.Γ.registry part.1 part.2
  stable : ∀ b c, Arena.Retains v.base.size b c → Φ b → Φ c
  known : Φ b

/-- What holds after a rule has failed. -/
def Left (b : Arena) : Prop := v.base.Annotates v.Γ.registry (v.touched v.parts) b

/-- The check of a part annotates what it reaches, as long as the nodes below the part are as they
were. -/
def Visits (recur : ExprId → Body Ty) : Prop :=
  ∀ p ∈ v.parts, ∀ b, v.base.size ≤ b.size → (∀ x, v.own p x → b.get? x = v.base.get? x) →
    Ensures (fun s => s.arena = b) (recur p)
      (fun ty s => b.Annotates v.Γ.registry (v.touched [p]) s.arena ∧
        s.arena.Records v.Γ.registry p ty)
      fun _ s => b.Annotates v.Γ.registry (v.touched [p]) s.arena

/-- From an arena with `pre`, the step yields something and leaves one with `post`, or it fails and
leaves what may be left. -/
def Runs {α : Type} (pre : Arena → Prop) (step : Body α) (post : α → Arena → Prop) : Prop :=
  Ensures (fun s => pre s.arena) step (fun a s => post a s.arena) fun _ s => v.Left s.arena

variable {v} {visited : List (ExprId × Ty)} {pending : List ExprId} {Φ Ψ : Arena → Prop}
  {b c : Arena}
variable {α β : Type} {pre : Arena → Prop} {post : β → Arena → Prop} {recur : ExprId → Body Ty}
variable {p : ExprId} {ty target : Ty}

theorem At.left (h : v.At visited pending Φ b) : v.Left b := by
  apply h.annotates.mono
  rintro x k ⟨hk, part, hpart, hreach⟩
  refine ⟨hk, part, ?_, hreach⟩
  rw [h.split]
  exact List.mem_append_left _ hpart

/-- What a part that waits has below it was not touched. -/
theorem At.not_touched (h : v.At visited (p :: pending) Φ b) {x : ExprId} {k : ClassId}
    (hx : v.own p x) : ¬ v.touched (visited.map Prod.fst) x k := by
  rintro ⟨-, q, hq, hreach⟩
  have hapart := v.apart
  rw [h.split, List.pairwise_append] at hapart
  exact hapart.2.2 q hq p List.mem_cons_self x (v.own_of_reach hreach) hx

/-! ### Steps that change no node -/

namespace Runs

protected theorem bind {step : Body α} {next : α → Body β} {Q : α → Arena → Prop}
    (h : v.Runs pre step Q) (hnext : ∀ a, v.Runs (Q a) (next a) post) :
    v.Runs pre (step >>= next) post :=
  Ensures.bind h hnext

protected theorem pure {a : β} (h : ∀ b, pre b → post a b) : v.Runs pre (pure a) post :=
  fun s hs => h s.arena hs

/-- The precondition may be weakened. -/
theorem of_imp {step : Body β} {pre' : Arena → Prop} (h : v.Runs pre step post)
    (hpre : ∀ b, pre' b → pre b) : v.Runs pre' step post :=
  fun s hs => h s (hpre _ hs)

/-- What the precondition says of something other than the arena may be used. -/
theorem of_and {step : Body β} {P : Prop} (h : P → v.Runs pre step post) :
    v.Runs (fun b => P ∧ pre b) step post :=
  fun s hs => h hs.1 s hs.2

protected theorem reject {error : SemanticError} {line : Line} (h : ∀ b, pre b → v.Left b) :
    v.Runs pre (Step.reject error line) post :=
  fun s hs => h s.arena hs

theorem bind_reject {error : SemanticError} {line : Line} {next : α → Body β}
    (h : ∀ b, pre b → v.Left b) : v.Runs pre (Step.reject error line >>= next) post :=
  fun s hs => h s.arena hs

protected theorem fault {f : Fault} (h : ∀ b, pre b → v.Left b) :
    v.Runs pre (Step.fault f : Body β) post :=
  fun s hs => h s.arena hs

end Runs

/-- The step changes no node. -/
def Quiet (step : Body α) : Prop := ∀ s, (step.runFrom s).2.arena = s.arena

theorem Runs.bind_quiet {step : Body α} {next : α → Body β} (hquiet : Quiet step)
    (hleft : ∀ b, pre b → v.Left b) (hnext : ∀ a, v.Runs pre (next a) post) :
    v.Runs pre (step >>= next) post := by
  intro s hs
  have hsame := hquiet s
  rw [Step.runFrom_bind]
  rcases hrun : step.runFrom s with ⟨failure | a, s'⟩
  · rw [hrun] at hsame
    have hs' : pre s'.arena := hsame.symm ▸ hs
    exact hleft _ hs'
  · rw [hrun] at hsame
    have hs' : pre s'.arena := hsame.symm ▸ hs
    exact hnext a s' hs'

theorem quiet_get : Quiet (get : Body Session) := fun _ => rfl

theorem quiet_emit (event : Event) : Quiet (emit event) := fun _ => rfl

theorem quiet_define (name : String) (line : Line) (ty : Ty) : Quiet (define name line ty) :=
  fun _ => rfl

theorem quiet_of_constant {step : Body α} {result : Except Failure α}
    (h : Step.Constant step result) : Quiet step := by
  intro s
  rw [h.runFrom_eq]

theorem quiet_node (id : ExprId) : Quiet (node id) := by
  intro s
  rw [node, Step.runFrom_bind_of_ok (Step.runFrom_get s), (Step.constant_demand ..).runFrom_eq]

theorem quiet_castLine (id : ExprId) (source : Ty) (site : Line) :
    Quiet (castLine id source site) := by
  unfold castLine
  split
  · exact fun s => rfl
  · exact Step.runFrom_bind_invariant Session.arena (quiet_node id) fun _ _ => rfl

/-- A scope of its own changes nothing for the nodes. -/
theorem Runs.inScope {step : Body β} (h : v.Runs pre step post)
    (hleft : ∀ a b, post a b → v.Left b) : v.Runs pre (inScope step) post := by
  intro s hs
  have hstep := h { s with scopes := s.scopes.enter } hs
  rcases hrun : step.runFrom { s with scopes := s.scopes.enter } with ⟨result, after⟩
  rw [hrun] at hstep
  cases hleave : after.scopes.leave? with
  | none =>
    rw [runFrom_inScope_of_none hrun hleave]
    cases result with
    | error failure => exact hstep
    | ok a => exact hleft a _ hstep
  | some scopes =>
    rw [runFrom_inScope hrun hleave]
    cases result with
    | error failure => exact hstep
    | ok a => exact hstep

/-! ### Visiting parts -/

/-- A part is visited. -/
theorem bind_recur (hvisits : v.Visits recur) {next : Ty → Body β}
    (hnext : ∀ ty, v.Runs (v.At (visited ++ [(p, ty)]) pending Φ) (next ty) post) :
    v.Runs (v.At visited (p :: pending) Φ) (recur p >>= next) post := by
  intro s h
  have hp : p ∈ v.parts := by simp [h.split]
  have hlt : ∀ x, v.own p x → x.index < v.base.size := fun x hx => v.lt_size hp hx
  have hwaits : ∀ x, v.own p x → s.arena.get? x = v.base.get? x := fun x hx =>
    h.annotates.get?_eq (hlt x hx) fun k => h.not_touched hx
  have hnew : ∀ x k, v.touched [p] x k →
      x.index < v.base.size ∧ ∀ l, ¬ v.touched (visited.map Prod.fst) x l := by
    rintro x k ⟨-, q, hq, hreach⟩
    obtain rfl := List.mem_singleton.mp hq
    exact ⟨hlt x (v.own_of_reach hreach), fun l => h.not_touched (v.own_of_reach hreach)⟩
  have hvisit := hvisits p hp s.arena h.annotates.size_le hwaits
  rw [Step.runFrom_bind]
  rcases hrun : (recur p).runFrom s with ⟨failure | ty, s'⟩
  · have hannotates := h.annotates.trans (hvisit.error rfl hrun) hnew
    apply hannotates.mono
    rintro x k (⟨hk, q, hq, hreach⟩ | ⟨hk, q, hq, hreach⟩)
    · exact ⟨hk, q, by rw [h.split]; exact List.mem_append_left _ hq, hreach⟩
    · exact ⟨hk, q, by rwa [List.mem_singleton.mp hq], hreach⟩
  · obtain ⟨hpart, hrecords⟩ := hvisit.ok rfl hrun
    refine hnext ty s' ⟨by simp [h.split], ?_, ?_, h.stable, ?_⟩
    · apply (h.annotates.trans hpart hnew).mono
      rintro x k (⟨hk, q, hq, hreach⟩ | ⟨hk, q, hq, hreach⟩)
      · exact ⟨hk, q, by simp_all, hreach⟩
      · exact ⟨hk, q, by simp_all, hreach⟩
    · intro part hmem
      rcases List.mem_append.mp hmem with hmem | hmem
      · -- what an earlier part records stays
        refine (h.records part hmem).of_get? ?_
        obtain ⟨node, type, hget, -⟩ := h.records part hmem
        apply hpart.get?_eq (Arena.lt_of_get? hget)
        intro k hk
        refine (hnew _ k hk).2 v.Γ.currentClass ⟨rfl, part.1, ?_, v.reach_self _⟩
        exact List.mem_map_of_mem hmem
      · obtain rfl := List.mem_singleton.mp hmem
        exact hrecords
    · exact h.stable _ _ (hpart.retains fun x k hk => (hnew x k hk).1) h.known

/-- What holds while a rule runs, whatever the types of the visited parts. -/
def Stage (v : Site) (pending : List ExprId) (Φ : Arena → Prop) (b : Arena) : Prop :=
  ∃ visited, v.At visited pending Φ b

theorem Stage.left (h : v.Stage pending Φ b) : v.Left b :=
  h.elim fun _ h => h.left

/-- A part is visited, and its type is not needed for what follows. -/
theorem runs_recur (hvisits : v.Visits recur) :
    v.Runs (v.Stage (p :: pending) Φ) (recur p) fun _ => v.Stage pending Φ := by
  rw [← bind_pure (recur p)]
  rintro s ⟨visited, h⟩
  exact bind_recur hvisits (fun ty => .pure fun b h => ⟨_, h⟩) s h

/-- A part is visited in a scope of its own. -/
theorem runs_inScope_recur (hvisits : v.Visits recur) :
    v.Runs (v.Stage (p :: pending) Φ) (inScope (recur p)) fun _ => v.Stage pending Φ :=
  (runs_recur hvisits).inScope fun _ _ h => h.left

/-! ### New nodes -/

theorem At.alloc (h : v.At visited pending Φ b) {node : Node}
    (hmade : Arena.Made v.Γ.registry (v.touched (visited.map Prod.fst)) v.base.size (b.alloc node)
      node) : v.At visited pending Φ (b.alloc node) where
  split := h.split
  annotates := h.annotates.alloc hmade
  records part hpart := by
    obtain ⟨old, type, hget, -⟩ := h.records part hpart
    exact (h.records part hpart).of_get? (Arena.get?_alloc_of_lt (Arena.lt_of_get? hget))
  stable := h.stable
  known := h.stable _ _ (Arena.retains_alloc _ b node) h.known

theorem At.congr (h : v.At visited pending Φ b) (hΦ : ∀ b, Φ b ↔ Ψ b) : v.At visited pending Ψ b :=
  ⟨h.split, h.annotates, h.records,
    fun b c hbc hb => (hΦ c).mp (h.stable b c hbc ((hΦ b).mpr hb)), (hΦ b).mp h.known⟩

/-- One more fact about the new nodes may be kept in mind. -/
theorem At.learn (h : v.At visited pending Φ b) (hΨ : Ψ b)
    (hstable : ∀ b c, Arena.Retains v.base.size b c → Ψ b → Ψ c) :
    v.At visited pending (fun b => Φ b ∧ Ψ b) b :=
  ⟨h.split, h.annotates, h.records,
    fun b c hbc hb => ⟨h.stable b c hbc hb.1, hstable b c hbc hb.2⟩, h.known, hΨ⟩

/-- A visited part is wrapped in a cast, to a type that its own widens to. -/
theorem runs_wrapInCast (hpart : (p, ty) ∈ visited) (hwidens : v.Γ.registry.Widens ty target)
    (line : Line) :
    v.Runs (v.At visited pending Φ) (wrapInCast v.Γ p target line)
      fun slot => v.At visited pending fun b => Φ b ∧ b.LeadsTo v.base.size slot p := by
  refine Ensures.bind_demand_cases (fun _ s h => h.left) fun type hlabel => ?_
  intro s h
  -- the part was there before the rule, and its type has been recorded
  have hmem : p ∈ v.parts := by
    rw [h.split]
    exact List.mem_append_left _ (List.mem_map_of_mem hpart)
  have hlt : p.index < v.base.size := v.lt_size hmem (v.own_of_reach (v.reach_self p))
  have hmade : Arena.Made v.Γ.registry (v.touched (visited.map Prod.fst)) v.base.size
      (s.arena.alloc ⟨line, .cast type.text p, some type⟩)
      ⟨line, .cast type.text p, some type⟩ := by
    refine .cast ⟨rfl, p, List.mem_map_of_mem hpart, v.reach_self p⟩ hlt hlabel
      ((h.records _ hpart).of_get? ?_) hwidens
    exact Arena.get?_alloc_of_lt (hlt.trans_le h.annotates.size_le)
  refine (h.alloc hmade).learn ?_ fun b c hbc hb => hb.retained hbc
  refine .inr ⟨h.annotates.size_le, line, type.text, some type, ?_⟩
  rw [Arena.get?_alloc, if_pos rfl]

/-- A visited part is used where a type is expected. -/
theorem runs_convert (hpart : (p, ty) ∈ visited) (target : Ty) (site : Line) :
    v.Runs (v.At visited pending Φ) (convert v.Γ p ty target site)
      fun slot => v.At visited pending fun b => Φ b ∧ b.LeadsTo v.base.size slot p := by
  unfold convert
  split
  · exact Runs.pure fun b h => h.learn (.refl b _ p) fun b c hbc hb => hb.retained hbc
  · next target' hconversion =>
    have hwidens := Registry.widens_of_conversion? hconversion
    exact .bind_quiet (quiet_castLine _ _ _) (fun b h => h.left) fun line =>
      runs_wrapInCast hpart hwidens line
  · refine .bind_quiet (quiet_of_constant (constant_typeName ..)) (fun b h => h.left)
      fun source => ?_
    refine .bind_quiet (quiet_of_constant (constant_typeName ..)) (fun b h => h.left)
      fun target => ?_
    exact .reject fun b h => h.left

/-! ### Parts in a row -/

theorem runs_part (hvisits : v.Visits recur) (expected : Ty) (site : Line) :
    v.Runs (v.At visited (p :: pending) Φ) (checkPart v.Γ recur p expected site)
      fun slot => v.Stage pending fun b => Φ b ∧ b.LeadsTo v.base.size slot p := by
  refine bind_recur hvisits fun ty => ?_
  refine (runs_convert (List.mem_append_right _ List.mem_cons_self) expected site).mono
    (fun s h => h) ?_
  exact fun slot s h => ⟨_, h⟩

theorem runs_items (hvisits : v.Visits recur) (ty : Ty) (items : List ExprId) :
    v.Runs (v.At visited items Φ) (checkItems recur ty items) fun _ => v.Stage [] Φ := by
  induction items generalizing visited ty with
  | nil => exact .pure fun b h => ⟨visited, h⟩
  | cons item items ih => exact bind_recur hvisits fun ty => ih ty

theorem runs_args (hvisits : v.Visits recur) (line : Line) (args : List ExprId)
    (params : List ParamDef) :
    v.Runs (v.Stage args Φ) (checkArgs v.Γ recur line args params)
      fun slots => v.Stage [] fun b =>
        Φ b ∧ List.Forall₂ (b.LeadsTo v.base.size) slots args := by
  induction args generalizing params Φ with
  | nil =>
    cases params with
    | nil =>
      refine .pure ?_
      rintro b ⟨visited, h⟩
      exact ⟨visited, h.learn .nil fun b c _ h => .nil⟩
    | cons param params => exact .fault fun b h => h.left
  | cons arg args ih =>
    cases params with
    | nil => exact .fault fun b h => h.left
    | cons param params =>
      refine .bind (Q := fun slot => v.Stage args fun b =>
        Φ b ∧ b.LeadsTo v.base.size slot arg) ?_ fun slot => ?_
      · rintro s ⟨visited, h⟩
        exact runs_part hvisits param.ty line s h
      · refine .bind (ih params) fun slots => .pure ?_
        rintro b ⟨visited, h⟩
        refine ⟨visited, h.congr fun b => ?_⟩
        rw [List.forall₂_cons, and_assoc]

/-! ### The rules -/

/-- What a rule has made of an expression. -/
def Result (v : Site) (expr expr' : Expr) (b : Arena) : Prop :=
  v.Left b ∧ b.Reworks v.Γ.registry v.base.size v.Γ.currentClass expr expr'

theorem Stage.result {expr expr' : Expr} (h : v.Stage pending Φ b)
    (hshape : expr'.shape = expr.shape)
    (hchildren : List.Forall₂ (b.LeadsTo v.base.size) expr'.children expr.children) :
    v.Result expr expr' b :=
  ⟨h.left, .slots hshape hchildren⟩

theorem map_unit_eq {xs ys : List ExprId} (h : xs.length = ys.length) :
    xs.map (fun _ => ()) = ys.map fun _ => () := by
  rw [List.map_const', List.map_const', h]

/-- The expression has new annotations at most. -/
theorem Stage.same {expr expr' : Expr} (h : v.Stage pending Φ b) (hshape : expr'.shape = expr.shape)
    (hchildren : expr'.children = expr.children) : v.Result expr expr' b :=
  h.result hshape (hchildren ▸ Arena.forall₂_leadsTo_refl _)

theorem runs_call (hvisits : v.Visits recur) (line : Line) (receiver : Ty) (name : String)
    (args : List ExprId) :
    v.Runs (v.Stage args Φ) (checkCall v.Γ recur line receiver name args)
      fun r => v.Stage [] fun b => Φ b ∧ List.Forall₂ (b.LeadsTo v.base.size) r.2 args := by
  unfold checkCall
  split
  · refine .bind_quiet (quiet_of_constant (constant_typeName ..)) (fun b h => h.left)
      fun source => ?_
    exact .reject fun b h => h.left
  · next method _ =>
    dsimp only
    split
    · exact .bind_reject fun b h => h.left
    · split
      · exact .bind_reject fun b h => h.left
      · exact .bind (runs_args hvisits line args method.params) fun slots => .pure fun b h => h

theorem runs_receiver (hvisits : v.Visits recur) (receiver : ExprId) :
    v.Runs (v.At visited (receiver :: pending) Φ) (checkReceiver v.Γ recur (some receiver))
      fun r b => r.1 = receiver ∧ v.Stage pending Φ b :=
  bind_recur hvisits fun _ => .pure fun _ h => ⟨rfl, _, h⟩

/-- A receiver is made for a call without one. -/
theorem runs_receiver_none (visited : List (ExprId × Ty)) :
    v.Runs (v.At visited pending Φ) (checkReceiver v.Γ recur none)
      fun r => v.Stage pending fun b =>
        Φ b ∧ b.HoldsReceiver v.Γ.registry v.base.size v.Γ.currentClass r.1 := by
  refine Ensures.bind_demand_cases (fun _ s h => h.left) fun type hlabel => ?_
  intro s h
  refine ⟨visited, (h.alloc (.receiver hlabel)).learn ?_ fun b c hbc hb => hb.retained hbc⟩
  refine ⟨h.annotates.size_le, v.Γ.line, type, hlabel, ?_⟩
  rw [Arena.get?_alloc, if_pos rfl]

theorem runs_dispatch (hvisits : v.Visits recur) (line : Line) (receiver : Option ExprId)
    (name : String) (args : List ExprId) (ref : Option MethodRef) :
    v.Runs (v.At [] (receiver.toList ++ args) fun _ => True)
      (checkDispatch v.Γ recur line receiver name args)
      fun r => v.Result (.dispatch receiver name args ref) r.1 := by
  cases receiver with
  | none =>
    -- the receiver is made, so the form has one slot more than it had
    refine .bind (runs_receiver_none []) fun r => ?_
    refine .bind (runs_call hvisits line r.2 name args) fun call => ?_
    refine .bind_quiet (quiet_of_constant (Visiting.constant_methodRef ..)) (fun b h => h.left)
      fun ref => ?_
    refine .pure ?_
    rintro b ⟨visited, h⟩
    exact ⟨h.left, .receiver h.known.1.2 h.known.2⟩
  | some receiver =>
    refine .bind (runs_receiver hvisits receiver) ?_
    rintro ⟨slot, ty⟩
    refine .of_and ?_
    rintro rfl
    refine .bind (runs_call hvisits line ty name args) fun call => ?_
    refine .bind_quiet (quiet_of_constant (Visiting.constant_methodRef ..)) (fun b h => h.left)
      fun ref => ?_
    refine .pure ?_
    rintro b ⟨visited, h⟩
    refine Stage.result ⟨visited, h⟩ ?_ (.cons (.refl b _ slot) h.known.2)
    simp only [Form.shape, Form.bare, Form.map, map_unit_eq h.known.2.length_eq]

theorem runs_staticDispatch (hvisits : v.Visits recur) (line : Line) (receiver : ExprId)
    (target name : String) (args : List ExprId) (type : Option TypeName) (ref : Option MethodRef) :
    v.Runs (v.At [] (receiver :: args) fun _ => True)
      (checkStaticDispatch v.Γ recur line receiver target name args)
      fun r => v.Result (.staticDispatch receiver target name args type ref) r.1 := by
  refine bind_recur hvisits fun receiverTy => ?_
  refine .bind_quiet (quiet_of_constant (constant_resolve ..)) (fun b h => h.left)
    fun targetTy => ?_
  dsimp only
  split
  · refine .bind_quiet (quiet_of_constant (constant_typeName ..)) (fun b h => h.left)
      fun source => ?_
    exact .bind_reject fun b h => h.left
  · refine .bind_quiet (quiet_of_constant (Step.constant_demand ..)) (fun b h => h.left)
      fun type => ?_
    refine .bind ((runs_call hvisits line targetTy name args).of_imp fun b h => ⟨_, h⟩)
      fun call => ?_
    refine .bind_quiet (quiet_of_constant (Visiting.constant_methodRef ..)) (fun b h => h.left)
      fun ref => ?_
    refine .pure ?_
    rintro b ⟨visited, h⟩
    refine Stage.result ⟨visited, h⟩ ?_ (.cons (.refl b _ receiver) h.known.2)
    simp only [Form.shape, Form.bare, Form.map, map_unit_eq h.known.2.length_eq]

theorem runs_condition (hvisits : v.Visits recur) (condition : ExprId) (construct : String)
    (line : Line) :
    v.Runs (v.At visited (condition :: pending) Φ) (checkCondition recur condition construct line)
      fun _ => v.Stage pending Φ := by
  refine bind_recur hvisits fun ty => ?_
  split
  · exact .reject fun b h => h.left
  · exact .pure fun b h => ⟨_, h⟩

theorem runs_conditional (hvisits : v.Visits recur) (line : Line) (condition thenBranch : ExprId)
    (elseBranch : Option ExprId) :
    v.Runs (v.At [] (condition :: thenBranch :: elseBranch.toList) fun _ => True)
      (checkConditional v.Γ recur line condition thenBranch elseBranch)
      fun _ => v.Stage [] fun _ => True := by
  refine .bind (runs_condition hvisits condition "If" line) fun _ => ?_
  refine .bind (runs_inScope_recur hvisits) fun thenTy => ?_
  cases elseBranch with
  | none => exact .pure fun b h => h
  | some elseBranch => exact .bind (runs_inScope_recur hvisits) fun elseTy => .pure fun b h => h

theorem runs_localDefinition (hvisits : v.Visits recur) (line : Line) (name declaredType : String)
    (init scope : Option ExprId) (type : Option TypeName) :
    v.Runs (v.At [] (init.toList ++ scope.toList) fun _ => True)
      (checkLocal v.Γ recur line name declaredType init scope)
      fun r => v.Result (.localDefinition name declaredType init scope type) r.1 := by
  refine .bind_quiet (quiet_of_constant (constant_resolve ..)) (fun b h => h.left)
    fun declared => ?_
  refine .bind_quiet (quiet_of_constant (Step.constant_demand ..)) (fun b h => h.left)
    fun type => ?_
  -- the initial value is checked outside of the scope that the definition opens
  have hinit : v.Runs (v.At [] (init.toList ++ scope.toList) fun _ => True)
      (init.mapM fun init => checkPart v.Γ recur init declared line)
      fun slot => v.Stage scope.toList fun b =>
        List.Forall₂ (b.LeadsTo v.base.size) slot.toList init.toList := by
    cases init with
    | none => exact .pure fun b h => ⟨[], h.congr fun b => by simp⟩
    | some init =>
      refine .bind (runs_part hvisits declared line) fun slot => .pure ?_
      rintro b ⟨visited, h⟩
      exact ⟨visited, h.congr fun b => by simp⟩
  refine .bind hinit fun slot => ?_
  refine .bind (show v.Runs _ _ fun _ => v.Stage [] fun b =>
    List.Forall₂ (b.LeadsTo v.base.size) slot.toList init.toList from ?_) fun ty => .pure ?_
  · refine Runs.inScope ?_ fun _ _ h => h.left
    refine .bind_quiet (quiet_define name line declared) (fun b h => h.left) fun _ => ?_
    cases scope with
    | none => exact .pure fun b h => h
    | some scope => exact runs_recur hvisits
  rintro b ⟨visited, h⟩
  have hinit := h.known
  refine Stage.result ⟨visited, h⟩ ?_ (List.rel_append hinit (Arena.forall₂_leadsTo_refl _))
  cases slot <;> cases init <;> simp_all [Form.shape, Form.bare, Form.map]

/-- What stands in front of the first point of a qualified target, and behind it. -/
theorem exists_of_qualified? {target name : String} (h : qualified? target = some name) :
    ∃ front, target.toList = front ++ '.' :: name.toList ∧ '.' ∉ front := by
  unfold qualified? at h
  have hsplit :=
    List.takeWhile_append_dropWhile (p := fun c => decide (c ≠ '.')) (l := target.toList)
  split at h
  · cases h
  · next point rest hdrop =>
    obtain rfl := Option.some_inj.mp h
    have hpoint : point = '.' := by
      have := List.head?_dropWhile_not (fun c => decide (c ≠ '.')) target.toList
      rw [hdrop] at this
      simpa using this
    refine ⟨target.toList.takeWhile fun c => decide (c ≠ '.'), ?_, ?_⟩
    · rw [String.toList_ofList]
      rw [hdrop, hpoint] at hsplit
      exact hsplit.symm
    · intro hmem
      simpa using List.mem_takeWhile_imp hmem

theorem qualified?_eq_none {target : String} (h : '.' ∉ target.toList) :
    qualified? target = none := by
  cases hqualified : qualified? target with
  | none => rfl
  | some name =>
    obtain ⟨front, htarget, -⟩ := exists_of_qualified? hqualified
    exact absurd (htarget ▸ by simp) h

/-- A name that stands for no variable is rejected. -/
theorem runs_rejectVariable (name : String) (line : Line) (h : ∀ b, pre b → v.Left b) :
    v.Runs pre (rejectVariable v.Γ name line) post :=
  .bind_quiet (quiet_of_constant (Step.constant_demand ..)) h fun _ => .reject h

theorem runs_assignment (hvisits : v.Visits recur) (line : Line) (target : String) (value : ExprId)
    (ref : Option VarRef) :
    v.Runs (v.At [] [value] fun _ => True) (checkAssignment v.Γ recur line target value)
      fun r => v.Result (.assignment target value ref) r.1 := by
  -- whatever the target is found to be, its value is the only part, and the target is written
  -- as the name that was found
  have hvalue : ∀ name (found : Variable), (∀ (b : Arena) value' ref',
      b.LeadsTo v.base.size value' value → b.Reworks v.Γ.registry v.base.size v.Γ.currentClass
        (.assignment target value ref) (.assignment name value' ref')) →
      v.Runs (v.At [] [value] fun _ => True)
        (do
          let value ← checkPart v.Γ recur value found.ty line
          return (Form.assignment name value (some found.ref), found.ty))
        fun r => v.Result (.assignment target value ref) r.1 := by
    intro name found hname
    refine .bind (runs_part hvisits found.ty line) fun slot => .pure ?_
    rintro b ⟨visited, h⟩
    exact ⟨h.left, hname b slot _ h.known.2⟩
  refine .bind_quiet quiet_get (fun b h => h.left) fun session => ?_
  unfold assigned
  cases hqualified : qualified? target with
  | none =>
    dsimp only
    cases v.Γ.lookup? session.scopes target with
    | none => exact runs_rejectVariable target line fun b h => h.left
    | some found =>
      apply hvalue target found
      intro b value' ref' hleads
      exact .slots rfl (.cons hleads .nil)
  | some name =>
    -- only what stands behind the point is written back
    obtain ⟨front, htarget, hfront⟩ := exists_of_qualified? hqualified
    dsimp only
    cases v.Γ.attribute? name with
    | none => exact runs_rejectVariable name line fun b h => h.left
    | some found =>
      apply hvalue name found
      intro b value' ref' hleads
      exact .qualified htarget hfront hleads

/-- Both operands of an operator are visited. -/
theorem bind_operands (hvisits : v.Visits recur) {lhs rhs : ExprId} {next : Ty → Ty → Body β}
    (hnext : ∀ lhsTy rhsTy, v.Runs (v.At [(lhs, lhsTy), (rhs, rhsTy)] [] fun _ => True)
      (next lhsTy rhsTy) post) :
    v.Runs (v.At [] [lhs, rhs] fun _ => True)
      (do
        let lhsTy ← recur lhs
        let rhsTy ← recur rhs
        next lhsTy rhsTy) post :=
  bind_recur hvisits fun lhsTy => bind_recur hvisits fun rhsTy => hnext lhsTy rhsTy

theorem runs_rejectOperand (operand : ExprId) (ty other : Ty) (h : ∀ b, pre b → v.Left b) :
    v.Runs pre (rejectOperand v.Γ operand ty other) post := by
  refine .bind_quiet (quiet_node operand) h fun node => ?_
  dsimp only
  split
  · exact .bind_quiet (quiet_of_constant (constant_typeName ..)) h fun _ => .reject h
  · exact .reject h

theorem runs_addition (hvisits : v.Visits recur) (line : Line) (lhs rhs : ExprId) :
    v.Runs (v.At [] [lhs, rhs] fun _ => True) (checkAddition v.Γ recur line lhs rhs)
      fun r => v.Result (.addition lhs rhs) r.1 := by
  refine bind_operands hvisits fun lhsTy rhsTy => ?_
  split
  · exact .pure fun b h => Stage.same ⟨_, h⟩ rfl rfl
  split
  · next htypes =>
    obtain ⟨rfl, rfl⟩ := htypes
    refine .bind (runs_wrapInCast List.mem_cons_self .text line) fun slot => .pure fun b h => ?_
    exact Stage.result ⟨_, h⟩ rfl (.cons h.known.2 (.cons (.refl b _ rhs) .nil))
  split
  · next htypes =>
    obtain ⟨rfl, rfl⟩ := htypes
    refine .bind (runs_wrapInCast (List.mem_cons_of_mem _ List.mem_cons_self) .text line)
      fun slot => .pure fun b h => ?_
    exact Stage.result ⟨_, h⟩ rfl (.cons (.refl b _ lhs) (.cons h.known.2 .nil))
  split
  · exact runs_rejectOperand _ _ _ fun b h => h.left
  split
  · exact runs_rejectOperand _ _ _ fun b h => h.left
  · exact .fault fun b h => h.left

theorem runs_binary (hvisits : v.Visits recur) (line : Line) (operator : BinaryOperator)
    (lhs rhs : ExprId) :
    v.Runs (v.At [] [lhs, rhs] fun _ => True) (checkBinary v.Γ recur line operator lhs rhs)
      fun _ => v.Stage [] fun _ => True := by
  refine bind_operands hvisits fun lhsTy rhsTy => ?_
  refine .bind_quiet (quiet_emit _) (fun b h => h.left) fun _ => ?_
  dsimp only
  split
  · refine .bind_quiet (quiet_of_constant (constant_typeName ..)) (fun b h => h.left) fun _ => ?_
    exact .bind_reject fun b h => h.left
  split
  · refine .bind_quiet (quiet_of_constant (constant_typeName ..)) (fun b h => h.left) fun _ => ?_
    exact .reject fun b h => h.left
  · exact .pure fun b h => ⟨_, h⟩

/-- A side of a comparison is seen as an `Object`. -/
theorem runs_widen (hpart : (p, ty) ∈ visited) (hclass : ty.class?.isSome)
    (hne : ty ≠ .object .object) :
    v.Runs (v.At visited pending Φ) (widen v.Γ p)
      fun slot => v.At visited pending fun b => Φ b ∧ b.LeadsTo v.base.size slot p := by
  intro s h
  obtain ⟨id, hid⟩ := Option.isSome_iff_exists.mp hclass
  obtain rfl : ty = .object id := by
    cases ty <;> simp_all [Ty.class?]
  -- a type that could be recorded is of a class of the registry, and that is under `Object`
  have hlt : id.index < v.Γ.registry.size := by
    obtain ⟨node, type, -, -, hlabel⟩ := h.records _ hpart
    by_contra hge
    rw [Registry.label?, Registry.class?_eq_none_iff.mpr (Nat.le_of_not_lt hge)] at hlabel
    cases hlabel
  have hwidens : v.Γ.registry.Widens (.object id) (.object .object) := by
    refine .upcast (v.rooted id hlt ?_)
    rintro rfl
    exact hne rfl
  exact Runs.bind_quiet (quiet_node p) (fun b h => h.left)
    (fun node => runs_wrapInCast hpart hwidens node.line) s h

theorem runs_equality (hvisits : v.Visits recur) (line : Line) (lhs rhs : ExprId) :
    v.Runs (v.At [] [lhs, rhs] fun _ => True) (checkEquality v.Γ recur line lhs rhs)
      fun expr => v.Result (.equality lhs rhs) expr := by
  refine bind_operands hvisits fun lhsTy rhsTy => ?_
  -- one of the sides, or none, is pointed at a cast
  have hsame : v.Runs (v.At [(lhs, lhsTy), (rhs, rhsTy)] [] fun _ => True)
      (pure (.equality lhs rhs)) fun expr => v.Result (.equality lhs rhs) expr :=
    .pure fun b h => Stage.same ⟨_, h⟩ rfl rfl
  have hlhs :
      ∀ (step : Body ExprId), v.Runs (v.At [(lhs, lhsTy), (rhs, rhsTy)] [] fun _ => True) step
      (fun slot => v.At [(lhs, lhsTy), (rhs, rhsTy)] [] fun b =>
        True ∧ b.LeadsTo v.base.size slot lhs) →
      v.Runs (v.At [(lhs, lhsTy), (rhs, rhsTy)] [] fun _ => True)
        (do return .equality (← step) rhs) fun expr => v.Result (.equality lhs rhs) expr := by
    intro step hstep
    refine .bind hstep fun slot => .pure fun b h => ?_
    exact Stage.result ⟨_, h⟩ rfl (.cons h.known.2 (.cons (.refl b _ rhs) .nil))
  have hrhs :
      ∀ (step : Body ExprId), v.Runs (v.At [(lhs, lhsTy), (rhs, rhsTy)] [] fun _ => True) step
      (fun slot => v.At [(lhs, lhsTy), (rhs, rhsTy)] [] fun b =>
        True ∧ b.LeadsTo v.base.size slot rhs) →
      v.Runs (v.At [(lhs, lhsTy), (rhs, rhsTy)] [] fun _ => True)
        (do return .equality lhs (← step)) fun expr => v.Result (.equality lhs rhs) expr := by
    intro step hstep
    refine .bind hstep fun slot => .pure fun b h => ?_
    exact Stage.result ⟨_, h⟩ rfl (.cons (.refl b _ lhs) (.cons h.known.2 .nil))
  have hfirst : (lhs, lhsTy) ∈ [(lhs, lhsTy), (rhs, rhsTy)] := List.mem_cons_self
  have hsecond : (rhs, rhsTy) ∈ [(lhs, lhsTy), (rhs, rhsTy)] :=
    List.mem_cons_of_mem _ List.mem_cons_self
  split
  · exact hsame
  split
  · next htypes =>
    obtain ⟨rfl, rfl⟩ := htypes
    exact hlhs _ (runs_wrapInCast hfirst .text line)
  split
  · next htypes =>
    obtain ⟨rfl, rfl⟩ := htypes
    exact hrhs _ (runs_wrapInCast hsecond .text line)
  split
  · exact .reject fun b h => h.left
  split
  · exact hsame
  · next hobject =>
    split
    · next hclass => exact hlhs _ (runs_widen hfirst hclass fun heq => hobject (.inl heq))
    split
    · next hclass => exact hrhs _ (runs_widen hsecond hclass fun heq => hobject (.inr heq))
    · exact hsame

theorem runs_symbol (line : Line) (name : String) (ref : Option VarRef) :
    v.Runs (v.At [] [] fun _ => True) (checkSymbol v.Γ line name)
      fun r => v.Result (.symbol name ref) r.1 := by
  refine .bind_quiet quiet_get (fun b h => h.left) fun session => ?_
  cases v.Γ.lookup? session.scopes name with
  | some found => exact .pure fun b h => Stage.same ⟨_, h⟩ rfl rfl
  | none =>
    dsimp only
    split
    · exact .pure fun b h => Stage.same ⟨_, h⟩ rfl rfl
    · exact runs_rejectVariable name line fun b h => h.left

/-- The rule for the form of an expression: from parts that are as they were it makes an annotated
form of the expression, or it fails with some of the parts annotated. -/
theorem runs_rule (hvisits : v.Visits recur) (line : Line) (expr : Expr)
    (hparts : v.parts = entered v.Γ.registry expr) :
    v.Runs (v.At [] v.parts fun _ => True) (elaborate v.Γ recur line expr)
      fun r => v.Result expr r.1 := by
  rw [hparts]
  cases expr with
  | block items =>
    exact .bind (runs_items hvisits .noValue items) fun ty => .pure fun b h => h.same rfl rfl
  | localDefinition name typeName init scope type =>
    exact runs_localDefinition hvisits line name typeName init scope type
  | dispatch receiver name args ref => exact runs_dispatch hvisits line receiver name args ref
  | staticDispatch receiver target name args type ref =>
    exact runs_staticDispatch hvisits line receiver target name args type ref
  | conditional condition thenBranch elseBranch =>
    exact .bind (runs_conditional hvisits line condition thenBranch elseBranch) fun ty =>
      .pure fun b h => h.same rfl rfl
  | whileLoop condition body =>
    refine .bind (runs_condition hvisits condition "While" line) fun _ => ?_
    exact .bind (runs_inScope_recur hvisits) fun _ => .pure fun b h => h.same rfl rfl
  | cast typeName operand =>
    rw [entered, elaborate]
    cases v.Γ.registry.resolve? typeName with
    | none =>
      exact .bind_quiet (quiet_emit _) (fun b h => h.left) fun _ =>
        .pure fun b h => Stage.same ⟨_, h⟩ rfl rfl
    | some target =>
      exact bind_recur hvisits fun _ => .pure fun b h => Stage.same ⟨_, h⟩ rfl rfl
  | newObject typeName =>
    refine .bind_quiet (quiet_of_constant (constant_resolve ..)) (fun b h => h.left) fun ty => ?_
    dsimp only
    split
    · exact .bind_reject fun b h => h.left
    · exact .pure fun b h => Stage.same ⟨_, h⟩ rfl rfl
  | substring subject first last =>
    refine bind_recur hvisits fun _ => bind_recur hvisits fun _ => bind_recur hvisits fun _ => ?_
    dsimp only
    split
    · exact .bind_quiet (quiet_emit _) (fun b h => h.left) fun _ =>
        .pure fun b h => Stage.same ⟨_, h⟩ rfl rfl
    · exact .pure fun b h => Stage.same ⟨_, h⟩ rfl rfl
  | assignment target value ref => exact runs_assignment hvisits line target value ref
  | addition lhs rhs => exact runs_addition hvisits line lhs rhs
  | binary operator lhs rhs =>
    exact .bind (runs_binary hvisits line operator lhs rhs) fun _ =>
      .pure fun b h => h.same rfl rfl
  | unary operator operand =>
    refine bind_recur hvisits fun ty => ?_
    dsimp only
    split
    · exact .bind_quiet (quiet_emit _) (fun b h => h.left) fun _ =>
        .pure fun b h => Stage.same ⟨_, h⟩ rfl rfl
    · exact .pure fun b h => Stage.same ⟨_, h⟩ rfl rfl
  | equality lhs rhs =>
    exact .bind (runs_equality hvisits line lhs rhs) fun expr => .pure fun b h => h
  | symbol name ref => exact runs_symbol line name ref
  | intConstant value => exact .pure fun b h => Stage.same ⟨_, h⟩ rfl rfl
  | stringConstant value => exact .pure fun b h => Stage.same ⟨_, h⟩ rfl rfl
  | voidConstant => exact .pure fun b h => Stage.same ⟨_, h⟩ rfl rfl

end Site

variable {ι : Type} {mark : ExprId → ι} {Γ : Context} {a : Arena} {id : ExprId} {t : Term ι}
variable {ids : List ExprId}

/-- The nodes that the check of a root touches. -/
def touches (Γ : Context) (a : Arena) (root x : ExprId) (k : ClassId) : Prop :=
  k = Γ.currentClass ∧ a.Reachable Γ.registry root x

theorem entered_subset {registry : Registry} {expr : Expr} {p : ExprId}
    (h : p ∈ entered registry expr) : p ∈ expr.children ∧
      ∀ typeName operand, expr = .cast typeName operand → (registry.resolve? typeName).isSome := by
  unfold entered at h
  split at h
  · split at h
    · next hresolved =>
      refine ⟨h, ?_⟩
      rintro _ _ ⟨⟩
      exact hresolved
    · cases h
  · next hcast => exact ⟨h, fun typeName operand heq => absurd heq (hcast typeName operand)⟩

theorem entered_sublist (registry : Registry) (expr : Expr) :
    (entered registry expr).Sublist expr.children := by
  unfold entered
  split
  · split
    · exact .refl _
    · exact List.nil_sublist _
  · exact .refl _

/-- The node of a tree, as the rule for its form works on it. -/
def Site.ofNode (hread : a.Reads mark id t ids) (hnodup : ids.Nodup) {node : Node}
    (hget : a.get? id = some node)
    (hrooted : Γ.registry.UnderObject) :
    Site where
  Γ := Γ
  base := a
  parts := entered Γ.registry node.expr
  own := a.Below
  reach := a.Reachable Γ.registry
  reach_self _ := .root
  own_of_reach h := h.isBelow
  lt_size hp hx :=
    hread.lt_size _
      (hread.mem_of_below ((Arena.Below.part .root hget (entered_subset hp).1).trans hx))
  apart := (hread.pairwise_below hnodup hget).sublist (entered_sublist ..)
  rooted := hrooted

/-- The check of a node of a tree annotates the nodes that it reaches, and the node records its
type. -/
theorem annotates_checkBelow (depth : Nat) (hread : a.Reads mark id t ids) (hnodup : ids.Nodup)
    (hrooted : Γ.registry.UnderObject) :
    Ensures (fun s => s.arena = a) (checkBelow Γ depth id)
      (fun ty s => a.Annotates Γ.registry (touches Γ a id) s.arena ∧
        s.arena.Records Γ.registry id ty)
      fun _ s => a.Annotates Γ.registry (touches Γ a id) s.arena := by
  induction depth generalizing a id t ids with
  | zero =>
    rintro s rfl
    exact .refl ..
  | succ depth ih =>
    rintro s rfl
    obtain ⟨node, hget, -⟩ := hread.exists_get?
    let v : Site := .ofNode hread hnodup hget hrooted
    have hvisits : v.Visits (checkBelow Γ depth) := by
      intro p hp b hle hb
      obtain ⟨u, own, hp, hown, -⟩ := hread.exists_of_child hnodup hget (entered_subset hp).1
      have hb : ∀ x ∈ own, b.get? x = s.arena.get? x := fun x hx => hb x (hp.mem_iff_below.mp hx)
      have htouches : touches Γ b p = v.touched [p] := by
        funext x k
        simp [touches, Site.touched, v, Site.ofNode, hp.reachable_iff hb]
      rw [← htouches]
      exact ih (hp.of_get? hb) hown
    have htouched : ∀ x k, v.touched v.parts x k → touches Γ s.arena id x k := by
      rintro x k ⟨hk, p, hp, hreach⟩
      obtain ⟨hchild, hcast⟩ := entered_subset hp
      exact ⟨hk, (Arena.Reachable.part .root hget hchild hcast).trans hreach⟩
    -- the parts have other nodes below them than the node itself
    have hself : ∀ k, ¬ v.touched v.parts id k := by
      rintro k ⟨-, p, hp, hreach⟩
      obtain ⟨u, own, hp, -, hid⟩ := hread.exists_of_child hnodup hget (entered_subset hp).1
      exact hid (hp.mem_of_below hreach.isBelow)
    have hat : v.At [] v.parts (fun _ => True) s.arena :=
      ⟨rfl, .refl .., by simp, fun _ _ _ h => h, trivial⟩
    have hrule : Ensures
        (fun s' => s' = { s with log := s.log.push (.exprVisited node.expr.kind id node.line) })
        (elaborate Γ (checkBelow Γ depth) node.line node.expr)
        (fun r s' => v.Result node.expr r.1 s'.arena) fun _ s' => v.Left s'.arena :=
      (Site.runs_rule hvisits node.line node.expr rfl).mono (fun _ h => h ▸ hat) fun _ _ h => h
    refine ((ensures_checkBelow_succ hget hrule (fun _ _ h _ => h.1) ?_ ?_).mono_failed
      fun _ s' h => h.mono htouched) s rfl
    · intro r s' h
      rw [h.1.get?_eq (Arena.lt_of_get? hget) hself]
      exact hget
    · rintro expr ty type s' ⟨hleft, hreworks⟩ hlabel
      constructor
      · apply (hleft.set hself hget hreworks).mono
        rintro x k (hx | ⟨rfl, rfl⟩)
        · exact htouched x k hx
        · exact ⟨rfl, .root⟩
      · refine ⟨⟨node.line, expr, some type⟩, type, ?_, rfl, hlabel⟩
        rw [Arena.get?_set, if_pos ⟨rfl, (Arena.lt_of_get? hget).trans_le hleft.size_le⟩]

theorem annotates_checkExpr (hread : a.Reads mark id t ids) (hnodup : ids.Nodup)
    (hrooted : Γ.registry.UnderObject) :
    Ensures (fun s => s.arena = a) (checkExpr Γ id)
      (fun ty s => a.Annotates Γ.registry (touches Γ a id) s.arena ∧
        s.arena.Records Γ.registry id ty)
      fun _ s => a.Annotates Γ.registry (touches Γ a id) s.arena := by
  intro s hs
  rw [checkExpr, Step.runFrom_bind_of_ok (Step.runFrom_get s)]
  exact annotates_checkBelow _ hread hnodup hrooted s hs

/-- A root, as its check works on it. -/
def Site.ofRoot (Γ : Context) (hread : a.Reads mark id t ids)
    (hrooted : Γ.registry.UnderObject) :
    Site where
  Γ := Γ
  base := a
  parts := [id]
  own := a.Below
  reach := a.Reachable Γ.registry
  reach_self _ := .root
  own_of_reach h := h.isBelow
  lt_size hp hx := by
    obtain rfl := List.mem_singleton.mp hp
    exact hread.lt_size _ (hread.mem_of_below hx)
  apart := List.pairwise_singleton ..
  rooted := hrooted

theorem Site.visits_ofRoot (hread : a.Reads mark id t ids) (hnodup : ids.Nodup)
    (hrooted : Γ.registry.UnderObject) :
    (Site.ofRoot Γ hread hrooted).Visits (checkExpr Γ) := by
  intro p hp b hle hb
  obtain rfl := List.mem_singleton.mp hp
  have hb : ∀ x ∈ ids, b.get? x = a.get? x := fun x hx => hb x (hread.mem_iff_below.mp hx)
  have htouches : touches Γ b p = (Site.ofRoot Γ hread hrooted).touched [p] := by
    funext x k
    simp [touches, Site.touched, Site.ofRoot, hread.reachable_iff hb]
  rw [← htouches]
  exact annotates_checkExpr (hread.of_get? hb) hnodup hrooted

end Body

namespace Expectation

open Body

variable {ι : Type} {mark : ExprId → ι} {Γ : Context} {a : Arena} {root : ExprId} {t : Term ι}
variable {ids : List ExprId}

/-- The check of a root annotates the nodes that it reaches, and yields the root or a cast around
it. -/
theorem annotates_check (hread : a.Reads mark root t ids) (hnodup : ids.Nodup)
    (hrooted : Γ.registry.UnderObject)
    (e : Expectation) :
    Step.Ensures (fun s => s.arena = a) (e.check Γ root)
      (fun root' s => a.Annotates Γ.registry (touches Γ a root) s.arena ∧
        s.arena.LeadsTo a.size root' root)
      fun _ s => a.Annotates Γ.registry (touches Γ a root) s.arena := by
  let v : Site := .ofRoot Γ hread hrooted
  have hvisits : v.Visits (checkExpr Γ) := Site.visits_ofRoot hread hnodup hrooted
  -- a root is converted like any part, but its slot is outside of the arena
  have hconvert : ∀ source ty site, v.Runs (v.At [(root, source)] [] fun _ => True)
      (Body.convert Γ root source ty site)
      fun root' => v.Stage [] fun b => True ∧ b.LeadsTo a.size root' root := by
    intro source ty site
    refine (Site.runs_convert (v := v) List.mem_cons_self ty site).mono (fun s h => h) ?_
    exact fun slot s h => ⟨_, h⟩
  have hcheck : v.Runs (v.At [] [root] fun _ => True) (e.check Γ root)
      fun root' => v.Stage [] fun b => True ∧ b.LeadsTo a.size root' root := by
    cases e with
    | anything =>
      exact Site.bind_recur hvisits fun ty => .pure fun b h =>
        ⟨_, h.learn (.refl b _ root) fun b c hbc hb => hb.retained hbc⟩
    | initial ty site => exact Site.bind_recur hvisits fun source => hconvert source ty site
    | returned ty line =>
      refine Site.bind_recur hvisits fun source => ?_
      refine .bind_quiet (Site.quiet_node root) (fun b h => h.left) fun node => ?_
      dsimp only
      split
      · next target hconversion =>
        split
        · refine (Site.runs_wrapInCast (v := v) List.mem_cons_self
            (Registry.widens_of_conversion? hconversion) line).mono (fun s h => h) ?_
          exact fun slot s h => ⟨_, h⟩
        · exact hconvert source ty node.line
      · exact hconvert source ty node.line
  -- the root is the only part of its site
  have htouched : v.touched v.parts = touches Γ a root := by
    funext x k
    simp [touches, Site.touched, v, Site.ofRoot]
  rintro s rfl
  have hat : v.At [] [root] (fun _ => True) s.arena :=
    ⟨rfl, .refl .., by simp, fun _ _ _ h => h, trivial⟩
  rcases hrun : (e.check Γ root).runFrom s with ⟨failure | root', s'⟩
  · rw [← htouched]
    exact hcheck.error hat hrun
  · obtain ⟨visited, h⟩ := hcheck.ok hat hrun
    rw [← htouched]
    exact ⟨h.left, h.known.2⟩

end Expectation

end Lcpl

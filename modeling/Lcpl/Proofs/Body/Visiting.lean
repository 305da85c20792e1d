import Lcpl.Proofs.Arena.Reads
import Lcpl.Proofs.Lockstep
import Lcpl.Proofs.Term.Elaborate

/-!
# Visiting the parts of a node

While the rule for a node runs on an arena, the same rule runs on the term that the node reads as.
This module relates the two at each moment. The parts visited so far read as their elaboration
leaves them, and the other parts read as before. The slots of the node to come are held apart from
these: a slot can be redirected to a cast, while the part that it held stays a part of the node
until the rule has succeeded.

## Main definitions

* `Body.Simulates` — a check of nodes does what elaboration does to a term
* `Body.Visiting` — the node whose rule runs
* `Visiting.At`, `Visiting.Left` — the two runs while the rule runs, and after it failed

## Main results

* `Visiting.At.bind_recur`, `Visiting.At.bind_inScope` — visiting a part
* `Visiting.At.alloc`, `Visiting.At.wrapInCast`, `Visiting.At.convert` — making nodes
-/

namespace Lcpl

variable {ι : Type}

namespace Body

/-- Checking a node that reads as the term `t`, from any arena and in any scope, ends as the
elaboration of `t` does, and leaves the node reading as the term that elaboration leaves. Only the
nodes of the term are changed. After a success every new node belongs to the term. -/
def Simulates (Γ : Context) (made : ι) (mark : ExprId → ι) (recur : ExprId → Body Ty)
    (t : Term ι) : Prop :=
  ∀ (a : Arena) (id : ExprId) (ids : List ExprId) (locals : Scopes String Variable)
    (log : Array Event), a.Reads mark id t ids → ids.Nodup →
    (∀ x : ExprId, a.size ≤ x.index → mark x = made) →
    ∃ (b : Arena) (log' : Array Event) (ids' : List ExprId),
      (recur id).runFrom ⟨a, locals, log⟩ =
        ((t.elaborate Γ made locals).result, ⟨b, locals, log'⟩) ∧
      b.Reads mark id (t.elaborate Γ made locals).term ids' ∧ a.Grows ids b ids' ∧
      ∀ ty, (t.elaborate Γ made locals).result = .ok ty →
        b.size + ids.length = a.size + ids'.length

section Types

variable {σ : Type} (Γ : Context)

theorem constant_typeName (ty : Ty) : Step.Constant (typeName Γ ty : Step σ String)
    (match Γ.registry.label? ty with
      | some type => .ok type.text
      | none => .error (.fault (.unknownType ty))) := by
  refine ⟨fun s => ?_⟩
  unfold typeName label
  cases Γ.registry.label? ty <;> rfl

theorem constant_resolve (name : String) (line : Line) :
    Step.Constant (resolve Γ name line : Step σ Ty)
      (match Γ.registry.resolve? name with
        | some ty => .ok ty
        | none => .error (.rejected ⟨line, .classNotFound name⟩)) := by
  refine ⟨fun s => ?_⟩
  unfold resolve
  cases Γ.registry.resolve? name <;> rfl

end Types

section Scopes

variable {α : Type} {step : Body α} {s after : Session} {result : Except Failure α}

/-- A scope is left with what the step in it has come to, also when the step has failed. -/
theorem runFrom_inScope {scopes : Scopes String Variable}
    (hrun : step.runFrom { s with scopes := s.scopes.enter } = (result, after))
    (hleave : after.scopes.leave? = some scopes) :
    (inScope step).runFrom s = (result, { after with scopes }) := by
  rw [inScope, Step.runFrom_bind_of_ok (Step.runFrom_modify ..),
    Step.runFrom_bind_of_ok (Step.runFrom_get _), hrun]
  dsimp only
  rw [Step.runFrom_bind_of_ok (Step.runFrom_set ..), hleave,
    Step.runFrom_bind_of_ok (Step.runFrom_demand_some ..),
    Step.runFrom_bind_of_ok (Step.runFrom_set ..), Step.runFrom_ofExcept]

/-- A step that has left the scope which was entered for it. -/
theorem runFrom_inScope_of_none
    (hrun : step.runFrom { s with scopes := s.scopes.enter } = (result, after))
    (hleave : after.scopes.leave? = none) :
    (inScope step).runFrom s = (.error (.fault .rootScopeLeft), after) := by
  rw [inScope, Step.runFrom_bind_of_ok (Step.runFrom_modify ..),
    Step.runFrom_bind_of_ok (Step.runFrom_get _), hrun]
  dsimp only
  rw [Step.runFrom_bind_of_ok (Step.runFrom_set ..), hleave,
    Step.runFrom_bind_of_error (Step.runFrom_demand_none ..)]

end Scopes

/-- A node whose rule runs: the context, the marks, the local definitions in force, the arena at the
beginning, the parts by handle and term, and all the handles below them. -/
structure Visiting (ι : Type) where
  Γ : Context
  made : ι
  mark : ExprId → ι
  locals : Scopes String Variable
  arena : Arena
  parts : List (ExprId × Term ι)
  owned : List ExprId
  mark_new : ∀ x : ExprId, arena.size ≤ x.index → mark x = made

namespace Visiting

variable (v : Visiting ι)

/-- What is read at a moment of the rule: the parts visited so far as they were left, the slots of
the node to come, and the parts not yet visited. The handles of the visited parts are among those of
the slots. -/
structure Progress (visited slots pending : List (ExprId × Term ι)) (old ids rest : List ExprId)
    (arena : Arena) : Prop where
  handles_eq : (visited ++ pending).map Prod.fst = v.parts.map Prod.fst
  pending_eq : v.parts.drop visited.length = pending
  visited_reads : arena.ReadsAll v.mark visited old
  slots_read : arena.ReadsAll v.mark slots ids
  pending_reads : arena.ReadsAll v.mark pending rest
  sublist : old.Sublist ids
  grows : v.arena.Grows v.owned arena (ids ++ rest)
  count : arena.size + v.owned.length = v.arena.size + (ids.length + rest.length)

/-- While the rule runs: some parts are visited, with `slots` for the node to come, and the parts
`pending` are not. -/
def At (slots pending : List (ExprId × Term ι)) (s : Session) (w : List (Term ι)) : Prop :=
  s.scopes = v.locals ∧ ∃ visited old ids rest,
    w = visited.map Prod.snd ∧ v.Progress visited slots pending old ids rest s.arena

/-- After the rule failed: the parts visited until then read as they were left, and the others as
before. -/
def Left (s : Session) (w : List (Term ι)) : Prop :=
  s.scopes = v.locals ∧ ∃ visited ids, w = visited.map Prod.snd ∧
    (visited ++ v.parts.drop visited.length).map Prod.fst = v.parts.map Prod.fst ∧
    s.arena.ReadsAll v.mark (visited ++ v.parts.drop visited.length) ids ∧
    v.arena.Grows v.owned s.arena ids

variable {v} {visited slots pending front back : List (ExprId × Term ι)}
  {old ids rest : List ExprId}
variable {s : Session} {w : List (Term ι)} {id : ExprId} {t : Term ι}

theorem At.scopes_eq (h : v.At slots pending s w) : s.scopes = v.locals := h.1

theorem At.left (h : v.At slots pending s w) : v.Left s w := by
  obtain ⟨hscopes, visited, old, ids, rest, hw, hp⟩ := h
  refine ⟨hscopes, visited, old ++ rest, hw, ?_, ?_, ?_⟩
  · rw [hp.pending_eq]
    exact hp.handles_eq
  · rw [hp.pending_eq]
    exact Jointly.append_iff.mpr ⟨old, rest, rfl, hp.visited_reads, hp.pending_reads⟩
  · exact hp.grows.sublist (hp.sublist.append_right rest)

/-- A slot has the line of its term. -/
theorem At.exists_get? (h : v.At slots pending s w) (hmem : (id, t) ∈ slots) :
    ∃ node, s.arena.get? id = some node ∧ node.line = t.line := by
  obtain ⟨-, visited, old, ids, rest, -, hp⟩ := h
  obtain ⟨part, hread, -⟩ := hp.slots_read.exists_of_mem hmem
  obtain ⟨node, hnode, hline, -⟩ := hread.exists_get?
  exact ⟨node, hnode, hline⟩

/-! ### Visiting a part -/

/-- The run of a part, in any scope. -/
theorem At.exists_run {recur : ExprId → Body Ty} (h : v.At slots ((id, t) :: pending) s w)
    (hsim : Simulates v.Γ v.made v.mark recur t) (scope : Scopes String Variable) :
    ∃ s' : Session, s'.scopes = v.locals ∧
      (recur id).runFrom { s with scopes := scope } =
        ((t.elaborate v.Γ v.made scope).result, { s' with scopes := scope }) ∧
      v.Left s' (w ++ [(t.elaborate v.Γ v.made scope).term]) ∧
      ∀ ty, (t.elaborate v.Γ v.made scope).result = .ok ty →
        v.At (slots ++ [(id, (t.elaborate v.Γ v.made scope).term)]) pending s'
          (w ++ [(t.elaborate v.Γ v.made scope).term]) := by
  obtain ⟨-, visited, old, ids, _, rfl, hp⟩ := h
  obtain ⟨mine, rest, rfl, hmine, hrest⟩ := Jointly.cons_iff.mp hp.pending_reads
  -- the handles of the part are apart from those of the slots and of the other parts
  have hperm (own : List ExprId) : (own ++ (ids ++ rest)).Perm (ids ++ (own ++ rest)) :=
    List.perm_append_comm_assoc ..
  have hothers : (mine ++ (ids ++ rest)).Nodup := (hperm mine).nodup_iff.mpr hp.grows.nodup
  have hlt : ∀ x ∈ ids ++ rest, x.index < s.arena.size := by
    intro x hx
    rcases List.mem_append.mp hx with hx | hx
    · exact Arena.ReadsAll.lt_size hp.slots_read x hx
    · exact Arena.ReadsAll.lt_size hrest x hx
  obtain ⟨b, log, mine', hrun, hread, hgrow, hcount⟩ :=
    hsim s.arena id mine scope s.log hmine (List.nodup_append.mp hothers).1
      fun x hx => v.mark_new x (hp.grows.size_le.trans hx)
  generalize t.elaborate v.Γ v.made scope = r at hrun hread hcount ⊢
  have hkept := hgrow.get?_eq_of_append hothers hlt
  -- the visited parts and the slots both get the part, since nothing is converted yet
  have hvisited : b.ReadsAll v.mark (visited ++ [(id, r.term)]) (old ++ mine') :=
    Jointly.append_iff.mpr ⟨old, mine', rfl,
      Arena.ReadsAll.of_get? hp.visited_reads fun x hx => hkept x (by simp [hp.sublist.subset hx]),
      Jointly.singleton_iff.mpr hread⟩
  have hslots : b.ReadsAll v.mark (slots ++ [(id, r.term)]) (ids ++ mine') :=
    Jointly.append_iff.mpr ⟨ids, mine', rfl,
      Arena.ReadsAll.of_get? hp.slots_read fun x hx => hkept x (by simp [hx]),
      Jointly.singleton_iff.mpr hread⟩
  have hpending : b.ReadsAll v.mark pending rest :=
    Arena.ReadsAll.of_get? hrest fun x hx => hkept x (by simp [hx])
  have hgrows : v.arena.Grows v.owned b (ids ++ mine' ++ rest) := by
    rw [List.append_assoc]
    exact hp.grows.trans ((hgrow.frame hothers hlt).perm (hperm mine).symm (hperm mine').symm)
  have hsublist : (old ++ mine').Sublist (ids ++ mine') := hp.sublist.append_right mine'
  have hdrop : v.parts.drop (visited ++ [(id, r.term)]).length = pending := by
    rw [List.length_append, ← List.drop_drop, hp.pending_eq]
    rfl
  have hhandles : ((visited ++ [(id, r.term)]) ++ pending).map Prod.fst = v.parts.map Prod.fst := by
    rw [← hp.handles_eq]
    simp
  have hw : visited.map Prod.snd ++ [r.term] = (visited ++ [(id, r.term)]).map Prod.snd := by simp
  refine ⟨⟨b, v.locals, log⟩, rfl, hrun, ⟨rfl, visited ++ [(id, r.term)], old ++ mine' ++ rest, hw,
    ?_, ?_, hgrows.sublist (hsublist.append_right rest)⟩, fun ty hty => ⟨rfl, _, _, _, _, hw,
    ⟨hhandles, hdrop, hvisited, hslots, hpending, hsublist, hgrows, ?_⟩⟩⟩
  · rw [hdrop]
    exact hhandles
  · rw [hdrop]
    exact Jointly.append_iff.mpr ⟨_, _, rfl, hvisited, hpending⟩
  · -- nodes are counted after a success only
    have := hp.count
    have := hcount ty hty
    simp only [List.length_append] at *
    omega

section Parts

variable {α β : Type} {recur : ExprId → Body Ty} {step : Body Ty} {next : Ty → Body α}
variable {visit : Term ι × Ty → Visit ι β} {post : α → β → Session → List (Term ι) → Prop}

/-- A part is visited in some scope, on both sides. -/
theorem At.bind_run {scope : Scopes String Variable} (hsim : Simulates v.Γ v.made v.mark recur t)
    (hstep : ∀ s w s', v.At slots ((id, t) :: pending) s w → s'.scopes = v.locals →
      (recur id).runFrom { s with scopes := scope } =
        ((t.elaborate v.Γ v.made scope).result, { s' with scopes := scope }) →
      step.runFrom s = ((t.elaborate v.Γ v.made scope).result, s'))
    (hnext : ∀ ty, Step.Lockstep v.Left
      (v.At (slots ++ [(id, (t.elaborate v.Γ v.made scope).term)]) pending) (next ty)
      (visit ((t.elaborate v.Γ v.made scope).term, ty)) post) :
    Step.Lockstep v.Left (v.At slots ((id, t) :: pending)) (step >>= next)
      (Visit.part (t.elaborate v.Γ v.made scope) >>= visit) post := by
  intro s w h
  obtain ⟨s', hscopes, hrun, hleft, hat⟩ := h.exists_run hsim scope
  have hrun := hstep s w s' h hscopes hrun
  have hvisit := Visit.runFrom_part (t.elaborate v.Γ v.made scope) w
  -- both sides go on from the same result
  generalize t.elaborate v.Γ v.made scope = r at *
  cases hr : r.result with
  | error failure =>
    rw [hr] at hrun hvisit
    rw [Step.runFrom_bind_of_error hrun, Step.runFrom_bind_of_error hvisit]
    exact ⟨rfl, hleft⟩
  | ok ty =>
    rw [hr] at hrun hvisit
    rw [Step.runFrom_bind_of_ok hrun, Step.runFrom_bind_of_ok hvisit]
    exact hnext ty s' _ (hat ty hr)

/-- Checking a part is in lockstep with visiting it. -/
theorem At.bind_recur (hsim : Simulates v.Γ v.made v.mark recur t)
    (hnext : ∀ ty, Step.Lockstep v.Left
      (v.At (slots ++ [(id, (t.elaborate v.Γ v.made v.locals).term)]) pending) (next ty)
      (visit ((t.elaborate v.Γ v.made v.locals).term, ty)) post) :
    Step.Lockstep v.Left (v.At slots ((id, t) :: pending)) (recur id >>= next)
      (Visit.part (t.elaborate v.Γ v.made v.locals) >>= visit) post := by
  refine At.bind_run hsim (fun s w s' h hscopes hrun => ?_) hnext
  rw [← h.scopes_eq] at hrun
  rw [hrun, h.scopes_eq, ← hscopes]

/-- Checking a part in a scope of its own is in lockstep with visiting the part as it is elaborated
there. -/
theorem At.bind_inScope {scope : Scopes String Variable}
    (hsim : Simulates v.Γ v.made v.mark recur t) (hleave : scope.leave? = some v.locals)
    (hstep : ∀ s : Session, s.scopes = v.locals.enter →
      step.runFrom s = (recur id).runFrom { s with scopes := scope })
    (hnext : ∀ ty, Step.Lockstep v.Left
      (v.At (slots ++ [(id, (t.elaborate v.Γ v.made scope).term)]) pending) (next ty)
      (visit ((t.elaborate v.Γ v.made scope).term, ty)) post) :
    Step.Lockstep v.Left (v.At slots ((id, t) :: pending)) (Body.inScope step >>= next)
      (Visit.part (t.elaborate v.Γ v.made scope) >>= visit) post := by
  refine At.bind_run hsim (fun s w s' h hscopes hrun => ?_) hnext
  have hentered := hstep { s with scopes := s.scopes.enter } (by rw [h.scopes_eq])
  rw [runFrom_inScope (hentered.trans hrun) hleave, ← hscopes]

end Parts

/-! ### Steps without state -/

section Constants

variable {α β γ : Type} {post : α → β → Session → List (Term ι) → Prop}

theorem At.bind_demand {f : Fault} {value? : Option γ} {next : γ → Body α} {visit : γ → Visit ι β}
    (hnext : ∀ value, Step.Lockstep v.Left (v.At slots pending) (next value) (visit value) post) :
    Step.Lockstep v.Left (v.At slots pending) (Step.demand f value? >>= next)
      (Step.demand f value? >>= visit) post :=
  .bind_constant (Step.constant_demand ..) (Step.constant_demand ..) (fun _ _ h => h.left)
    fun value _ => hnext value

theorem At.bind_typeName {ty : Ty} {next : String → Body α} {visit : String → Visit ι β}
    (hnext : ∀ name, Step.Lockstep v.Left (v.At slots pending) (next name) (visit name) post) :
    Step.Lockstep v.Left (v.At slots pending) (typeName v.Γ ty >>= next)
      (typeName v.Γ ty >>= visit) post :=
  .bind_constant (constant_typeName ..) (constant_typeName ..) (fun _ _ h => h.left)
    fun name _ => hnext name

theorem At.bind_resolve {name : String} {line : Line} {next : Ty → Body α} {visit : Ty → Visit ι β}
    (hnext : ∀ ty, v.Γ.registry.resolve? name = some ty →
      Step.Lockstep v.Left (v.At slots pending) (next ty) (visit ty) post) :
    Step.Lockstep v.Left (v.At slots pending) (resolve v.Γ name line >>= next)
      (resolve v.Γ name line >>= visit) post := by
  refine .bind_constant (constant_resolve ..) (constant_resolve ..) (fun _ _ h => h.left) ?_
  intro ty hty
  cases hresolve : v.Γ.registry.resolve? name with
  | none => simp [hresolve] at hty
  | some found =>
    obtain rfl : found = ty := by simpa [hresolve] using hty
    exact hnext found hresolve

end Constants

/-! ### Making nodes -/

/-- The log plays no part. -/
theorem At.bind_emit {α β : Type} {event : Event} {next : Unit → Body α} {visit : Visit ι β}
    {post : α → β → Session → List (Term ι) → Prop}
    (hnext : Step.Lockstep v.Left (v.At slots pending) (next ()) visit post) :
    Step.Lockstep v.Left (v.At slots pending) (Body.emit event >>= next) visit post :=
  fun s w h => hnext { s with log := s.log.push event } w h

/-- A new node takes the slots of its parts, and has a slot in their place. -/
theorem At.alloc (front back : List (ExprId × Term ι)) (form : Form (ExprId × Term ι))
    (h : v.At (front ++ form.children ++ back) pending s w) (line : Line) (type : Option TypeName)
    (log : Array Event) :
    v.At (front ++ [(s.arena.next, .node v.made line (form.map Prod.snd) type)] ++ back) pending
      ⟨s.arena.alloc ⟨line, form.map Prod.fst, type⟩, s.scopes, log⟩ w := by
  obtain ⟨hscopes, visited, old, _, rest, hw, hp⟩ := h
  obtain ⟨_, idsBack, rfl, hslots, hback⟩ := Jointly.append_iff.mp hp.slots_read
  obtain ⟨idsFront, mine, rfl, hfront, hmine⟩ := Jointly.append_iff.mp hslots
  set ids := idsFront ++ mine ++ idsBack
  have hlt : ∀ x ∈ ids ++ rest, x.index < s.arena.size := by
    intro x hx
    rcases List.mem_append.mp hx with hx | hx
    · exact Arena.ReadsAll.lt_size hp.slots_read x hx
    · exact Arena.ReadsAll.lt_size hp.pending_reads x hx
  -- the new node owns itself and what its parts own; no node that is owned already is touched
  set node : Node := ⟨line, form.map Prod.fst, type⟩
  have hgrow : s.arena.Grows (ids ++ rest) (s.arena.alloc node) (s.arena.next :: (ids ++ rest)) :=
    .alloc hp.grows.nodup hlt node
  have hkept : ∀ x ∈ ids ++ rest, (s.arena.alloc node).get? x = s.arena.get? x := by
    intro x hx
    rw [Arena.get?_alloc, if_neg]
    rintro rfl
    exact absurd (hlt _ hx) (by simp [Arena.next])
  have hnode : (s.arena.alloc node).Reads v.mark s.arena.next
      (.node v.made line (form.map Prod.snd) type) (s.arena.next :: mine) := by
    rw [← v.mark_new s.arena.next hp.grows.size_le]
    refine .node form (by rw [Arena.get?_alloc, if_pos rfl]) ?_
    exact Arena.ReadsAll.of_get? hmine fun x hx => hkept x (by simp [ids, hx])
  have hperm : (idsFront ++ (s.arena.next :: mine) ++ idsBack ++ rest).Perm
      (s.arena.next :: (ids ++ rest)) := by
    simp only [ids, List.append_assoc, List.cons_append]
    exact List.perm_middle
  refine ⟨hscopes, visited, old, idsFront ++ (s.arena.next :: mine) ++ idsBack, rest, hw,
    hp.handles_eq, hp.pending_eq, ?_, ?_, ?_, ?_, ?_, ?_⟩
  · exact Arena.ReadsAll.of_get? hp.visited_reads fun x hx =>
      hkept x (List.mem_append_left _ (hp.sublist.subset hx))
  · exact Jointly.append_iff.mpr ⟨_, _, rfl, Jointly.append_iff.mpr ⟨_, _, rfl,
      Arena.ReadsAll.of_get? hfront fun x hx => hkept x (by simp [ids, hx]),
      Jointly.singleton_iff.mpr hnode⟩,
      Arena.ReadsAll.of_get? hback fun x hx => hkept x (by simp [ids, hx])⟩
  · exact Arena.ReadsAll.of_get? hp.pending_reads fun x hx => hkept x (List.mem_append_right _ hx)
  · refine hp.sublist.trans ?_
    exact ((List.sublist_cons_self ..).append_left _).append_right _
  · exact hp.grows.trans (hgrow.perm (.refl _) hperm)
  · have := hp.count
    simp only [ids, List.length_append, List.length_cons, Arena.size_alloc] at *
    omega

theorem At.wrapInCast (front back : List (ExprId × Term ι)) (target : Ty) (line : Line) :
    Step.Lockstep v.Left (v.At (front ++ [(id, t)] ++ back) pending)
      (Body.wrapInCast v.Γ id target line) (Visit.wrapInCast v.Γ v.made t target line)
      fun c t' => v.At (front ++ [(c, t')] ++ back) pending := by
  refine At.bind_demand fun type => ?_
  intro s w h
  exact At.alloc front back (.cast type.text (id, t)) h line (some type) _

theorem runFrom_node {node : Node} (h : s.arena.get? id = some node) :
    (Body.node id).runFrom s = (.ok node, s) := by
  rw [Body.node, Step.runFrom_bind_of_ok (Step.runFrom_get s), h, Step.runFrom_demand_some]

/-- The line of a slot is that of its term. -/
theorem At.bind_line {α β : Type} {next : Node → Body α} {visit : Visit ι β}
    {post : α → β → Session → List (Term ι) → Prop} (hmem : (id, t) ∈ slots)
    (hnext : ∀ node : Node, node.line = t.line →
      Step.Lockstep v.Left (v.At slots pending) (next node) visit post) :
    Step.Lockstep v.Left (v.At slots pending) (Body.node id >>= next) visit post := by
  intro s w h
  obtain ⟨node, hget, hline⟩ := h.exists_get? hmem
  rw [Step.runFrom_bind_of_ok (runFrom_node hget)]
  exact hnext node hline s w h

theorem At.convert (source target : Ty) (site : Line) :
    Step.Lockstep v.Left (v.At (slots ++ [(id, t)]) pending)
      (Body.convert v.Γ id source target site) (Visit.convert v.Γ v.made t source target site)
      fun c t' => v.At (slots ++ [(c, t')]) pending := by
  unfold Body.convert Visit.convert
  cases hconv : v.Γ.registry.conversion? source target with
  | none =>
    refine At.bind_typeName fun source => At.bind_typeName fun target => ?_
    exact .reject fun _ _ h => h.left
  | some conversion =>
    cases conversion with
    | keep => exact .pure fun _ _ h => h
    | cast target =>
      -- the line of the cast is that of the site for a number, and that of the slot otherwise
      have hwrap (line : Line) : Step.Lockstep v.Left (v.At (slots ++ [(id, t)]) pending)
          (Body.wrapInCast v.Γ id target line) (Visit.wrapInCast v.Γ v.made t target line)
          fun c t' => v.At (slots ++ [(c, t')]) pending := by
        simpa only [List.append_nil] using At.wrapInCast slots [] target line
      dsimp only [Body.castLine]
      split
      · exact hwrap site
      · simp only [bind_assoc, pure_bind]
        refine At.bind_line (List.mem_append_right _ List.mem_cons_self) fun node hline => ?_
        rw [← hline]
        exact hwrap node.line

end Visiting

end Body

end Lcpl

import Lcpl.Proofs.Ensures
import Lcpl.Proofs.Term.Typing

/-!
# Elaboration is sound

Elaboration in a sound context never runs into a fault. If it succeeds, the term that it leaves is
well typed. If a rule fails, it has visited its parts in order up to some point.

Each rule is described by what it ensures, given the same of its parts.

## Main definitions

* `Context.Sound`, `Context.SoundScopes` — contexts and local definitions whose types are declared
* `Elaborated.Good` — what the elaboration of a part ends with
* `Visit.Seen`, `Visit.Stopped` — the parts visited so far, while a rule runs and after it failed
* `Visit.Cause` — whether a rule has failed by itself or because of a part
* `Visit.Result` — what a rule ends with
* `Naming.Holds`, `Term.Named` — a term whose names are as a `Naming` says
* `Naming.any` — the naming that says nothing

## Main results

* `Visit.ensures_rule` — what the rule of each form ensures
* `Term.good_elaborate` — elaboration does not fault, and what it leaves is well typed
-/

namespace Lcpl

open Step (Ensures)

variable {ι : Type}

/-! ### Contexts -/

/-- The class is registered, and the types of the parameters are declared ones. -/
structure Context.Sound (Γ : Context) : Prop where
  coherent : Γ.registry.Coherent
  current : ∃ name, Γ.registry.name? Γ.currentClass = some name
  params : ∀ p ∈ Γ.params, Γ.registry.Declarable p.ty

/-- The types of the local definitions in force are declared ones. -/
def Context.SoundScopes (Γ : Context) (locals : Scopes String Variable) : Prop :=
  ∀ name found, locals.find? name = some found → Γ.registry.Declarable found.ty

namespace Context

variable {Γ : Context} {locals : Scopes String Variable} {name : String} {found : Variable}

theorem soundScopes_empty : Γ.SoundScopes .empty := by
  intro name found h
  simp at h

theorem SoundScopes.enter (h : Γ.SoundScopes locals) : Γ.SoundScopes locals.enter := h

theorem SoundScopes.scopeOf (h : Γ.SoundScopes locals) (line : Line) (name typeName : String) :
    Γ.SoundScopes (Γ.scopeOf line name typeName locals) := by
  unfold Context.scopeOf
  split
  · next ty hty =>
    intro other found hfound
    rw [Scopes.find?_define] at hfound
    split at hfound
    · obtain rfl := Option.some_inj.mp hfound
      exact ⟨typeName, hty⟩
    · exact h other found hfound
  · exact h

/-- Every part of a form has a sound scope, if it has one. -/
theorem SoundScopes.of_mem_scoped {κ : Type} {line : Line} {form : Form κ}
    {part : κ × Option (Scopes String Variable)} {scope : Scopes String Variable}
    (h : Γ.SoundScopes locals) (hpart : part ∈ (form.scoped Γ line locals).children)
    (hscope : part.2 = some scope) : Γ.SoundScopes scope := by
  rcases Form.scope_of_mem_scoped hpart hscope with rfl | rfl | ⟨name, typeName, _, _, _, -, rfl⟩
  · exact h
  · exact h.enter
  · exact h.scopeOf line name typeName

theorem declarable_of_attribute? (hΓ : Γ.Sound) (h : Γ.attribute? name = some found) :
    Γ.registry.Declarable found.ty := by
  obtain ⟨attr, hattr, howner⟩ := Option.bind_eq_some_iff.mp h
  obtain ⟨owner, -, rfl⟩ := Option.map_eq_some_iff.mp howner
  exact (hΓ.coherent.of_lookupAttribute? hattr).2

theorem declarable_of_lookup? (hΓ : Γ.Sound) (hlocals : Γ.SoundScopes locals)
    (h : Γ.lookup? locals name = some found) : Γ.registry.Declarable found.ty := by
  unfold lookup? at h
  split at h
  · next hfound => exact hlocals name found (h ▸ hfound)
  · split at h
    · next hparam =>
      obtain rfl := Option.some_inj.mp h
      obtain ⟨param, hmem, rfl⟩ := Option.map_eq_some_iff.mp hparam
      exact hΓ.params param (List.mem_reverse.mp (List.mem_of_find?_eq_some hmem))
    · exact declarable_of_attribute? hΓ h

theorem declarable_of_assigned {written target : String} (hΓ : Γ.Sound)
    (hlocals : Γ.SoundScopes locals)
    (h : Body.assigned Γ locals written = (target, some found)) :
    Γ.registry.Declarable found.ty := by
  unfold Body.assigned at h
  split at h
  · exact declarable_of_attribute? hΓ (Prod.mk.inj h).2
  · exact declarable_of_lookup? hΓ hlocals (Prod.mk.inj h).2

end Context

/-! ### Conversions -/

namespace Registry

variable {registry : Registry} {source target : Ty}

theorem conversion?_eq_keep_iff :
    registry.conversion? source target = some .keep ↔ source.Fits target := by
  unfold conversion? Ty.Fits
  by_cases h : source = target
  · simp [h]
  · cases source <;> cases target <;> simp_all

/-- A cast leads to the type that is expected. -/
theorem eq_of_conversion?_eq_cast {ty : Ty}
    (h : registry.conversion? source target = some (.cast ty)) :
    ty = target := by
  unfold conversion? at h
  by_cases heq : source = target
  · simp [heq] at h
  · cases source <;> cases target <;> simp_all

theorem join_eq (a b : Ty) :
    registry.join a b = a ∨ registry.join a b = b ∨ registry.join a b = .noValue := by
  unfold join
  split
  · exact .inl rfl
  · split
    · exact .inr (.inl rfl)
    · exact .inl rfl
    · split
      · exact .inl rfl
      · split
        · exact .inr (.inl rfl)
        · exact .inr (.inr rfl)
    · exact .inr (.inr rfl)

end Registry

/-! ### Parts -/

/-- The elaboration of a part does not fault, and what it leaves after a success is well typed. -/
structure Elaborated.Good (Γ : Context) (N : ι → Naming) (scope : Scopes String Variable)
    (e : Elaborated ι) : Prop where
  ok : ∀ ty, e.result = .ok ty → e.term.WellTyped Γ N scope ty
  no_fault : ∀ f, e.result ≠ .error (.fault f)

namespace Visit

/-- The parts were all accepted. -/
def Accepted (parts : List (Elaborated ι)) : Prop := ∀ e ∈ parts, ∃ ty, e.result = .ok ty

/-- The parts `pending` are still to be visited; those in front of them have been, and were
accepted. -/
def Seen (parts pending : List (Elaborated ι)) (w : List (Term ι)) : Prop :=
  ∃ front, parts = front ++ pending ∧ w = front.map Elaborated.term ∧ Accepted front

/-- Why a rule fails after it has visited some parts: all of them were accepted and the rule itself
reports the failure, or the last of them has failed. -/
def Cause (failure : Failure) (visited : List (Elaborated ι)) : Prop :=
  Accepted visited ∨
    ∃ before last, visited = before ++ [last] ∧ Accepted before ∧ last.result = .error failure

/-- A rule was stopped by an error, after it had visited the first parts. -/
def Stopped (parts : List (Elaborated ι)) (failure : Failure) (w : List (Term ι)) : Prop :=
  (∃ front pending, parts = front ++ pending ∧ w = front.map Elaborated.term ∧
    Cause failure front) ∧
    ∀ f, failure ≠ .fault f

theorem Seen.stopped {parts pending : List (Elaborated ι)} {w : List (Term ι)}
    (h : Seen parts pending w) (error : Located SemanticError) :
    Stopped parts (.rejected error) w := by
  obtain ⟨front, hparts, hw, haccepted⟩ := h
  exact ⟨⟨front, pending, hparts, hw, .inl haccepted⟩, by simp⟩

theorem seen_nil (parts : List (Elaborated ι)) : Seen parts parts [] :=
  ⟨[], rfl, rfl, by simp [Accepted]⟩

variable {α : Type} {Γ : Context} {N : ι → Naming} {made : ι}
  {locals scope : Scopes String Variable}
variable {parts pending : List (Elaborated ι)} {e : Elaborated ι} {t : Term ι} {ty : Ty}
variable {post : α → List (Term ι) → Prop} {line site : Line}

/-- The type of a well-typed term can be recorded. -/
theorem exists_label_of_wellTyped (h : t.WellTyped Γ N scope ty) :
    ∃ type, Γ.registry.label? ty = some type := by
  cases h with
  | node form hlabel => exact ⟨_, hlabel⟩

theorem bind_part {next : Term ι × Ty → Visit ι α} (he : e.Good Γ N scope)
    (hnext : ∀ t ty, t.WellTyped Γ N scope ty →
      Ensures (Seen parts pending) (next (t, ty)) post (Stopped parts)) :
    Ensures (Seen parts (e :: pending)) (part e >>= next) post (Stopped parts) := by
  rintro w ⟨front, hparts, rfl, haccepted⟩
  have hsplit : parts = (front ++ [e]) ++ pending := by simp [hparts]
  have hterms : front.map Elaborated.term ++ [e.term] = (front ++ [e]).map Elaborated.term := by
    simp
  rw [Step.runFrom_bind, runFrom_part]
  cases hresult : e.result with
  | error failure =>
    exact ⟨⟨front ++ [e], pending, hsplit, hterms, .inr ⟨front, e, rfl, haccepted, hresult⟩⟩,
      fun f hf => he.no_fault f (hf ▸ hresult)⟩
  | ok ty =>
    refine hnext e.term ty (he.ok ty hresult) _ ⟨front ++ [e], hsplit, hterms, ?_⟩
    intro d hd
    rcases List.mem_append.mp hd with hd | hd
    · exact haccepted d hd
    · exact ⟨ty, List.mem_singleton.mp hd ▸ hresult⟩

theorem bind_typeName {σ : Type} {pre : σ → Prop} {failed : Failure → σ → Prop}
    {post : α → σ → Prop} {next : String → Step σ α}
    (hlabel : ∃ type, Γ.registry.label? ty = some type)
    (hnext : ∀ name, Ensures pre (next name) post failed) :
    Ensures pre (Body.typeName Γ ty >>= next) post failed := by
  obtain ⟨type, hlabel⟩ := hlabel
  rw [Body.typeName, bind_assoc]
  refine .bind_demand hlabel ?_
  rw [pure_bind]
  exact hnext type.text

theorem bind_resolve {σ : Type} {pre : σ → Prop} {failed : Failure → σ → Prop}
    {post : α → σ → Prop} {next : Ty → Step σ α} {name : String}
    (hfailed : ∀ s, pre s → ∀ error, failed (.rejected error) s)
    (hnext : ∀ ty, Γ.registry.resolve? name = some ty → Ensures pre (next ty) post failed) :
    Ensures pre (Body.resolve Γ name line >>= next) post failed := by
  unfold Body.resolve
  split
  · next ty hty =>
    rw [pure_bind]
    exact hnext ty hty
  · exact .bind_reject fun s hs => hfailed s hs _

/-- A cast to a declared type is well typed. -/
theorem ensures_wrapInCast (hΓ : Γ.Sound) {target : Ty} (ht : t.WellTyped Γ N scope ty)
    (htarget : Γ.registry.Declarable target) :
    Ensures (Seen parts pending) (wrapInCast Γ made t target line)
      (fun c w => c.WellTyped Γ N scope target ∧ Seen parts pending w) (Stopped parts) := by
  obtain ⟨type, hlabel, hresolve⟩ := hΓ.coherent.indexed.exists_label htarget
  refine .bind_demand hlabel (.pure fun w hw => ⟨?_, hw⟩)
  refine .node (.cast type.text (t, ty)) hlabel (.inl hresolve) fun part hpart scope' hscope => ?_
  simp only [Form.scoped, Form.children, List.mem_singleton, hresolve, Option.map_some] at hpart
  subst hpart
  obtain rfl := Option.some_inj.mp hscope
  exact ht

theorem ensures_convert (hΓ : Γ.Sound) {target : Ty} (ht : t.WellTyped Γ N scope ty)
    (htarget : Γ.registry.Declarable target) :
    Ensures (Seen parts pending) (convert Γ made t ty target site)
      (fun c w => (∃ ty, c.WellTyped Γ N scope ty ∧ ty.Fits target) ∧ Seen parts pending w)
      (Stopped parts) := by
  unfold convert
  split
  · next hconv =>
    exact .pure fun w hw => ⟨⟨ty, ht, Registry.conversion?_eq_keep_iff.mp hconv⟩, hw⟩
  · next target' hconv =>
    obtain rfl := Registry.eq_of_conversion?_eq_cast hconv
    exact (ensures_wrapInCast hΓ ht htarget).mono (fun w hw => hw)
      fun c w hc => ⟨⟨_, hc.1, .inl rfl⟩, hc.2⟩
  · refine bind_typeName (exists_label_of_wellTyped ht) fun source => ?_
    obtain ⟨type, hlabel, -⟩ := hΓ.coherent.indexed.exists_label htarget
    exact bind_typeName ⟨type, hlabel⟩ fun target => .reject fun w hw => hw.stopped _

theorem ensures_converted (hΓ : Γ.Sound) {target : Ty} (he : e.Good Γ N scope)
    (htarget : Γ.registry.Declarable target) :
    Ensures (Seen parts (e :: pending)) (converted Γ made e target site)
      (fun c w => (∃ ty, c.WellTyped Γ N scope ty ∧ ty.Fits target) ∧ Seen parts pending w)
      (Stopped parts) :=
  bind_part he fun _ _ ht => ensures_convert hΓ ht htarget

/-! ### Calls -/

theorem ensures_items (es : List (Elaborated ι)) (hes : ∀ e ∈ es, e.Good Γ N scope) (ty : Ty) :
    Ensures (Seen parts es) (items ty es)
      (fun r w => (∃ typed : List (Term ι × Ty), r.1 = typed.map Prod.fst ∧
        (∀ p ∈ typed, p.1.WellTyped Γ N scope p.2) ∧
        r.2 = (typed.getLast?.map Prod.snd).getD ty) ∧ Seen parts [] w) (Stopped parts) := by
  induction es generalizing ty with
  | nil => exact .pure fun w hw => ⟨⟨[], rfl, by simp, rfl⟩, hw⟩
  | cons e es ih =>
    refine bind_part (hes e (by simp)) fun t ty ht => ?_
    refine .bind (ih (fun e he => hes e (by simp [he])) ty) fun r => .pure ?_
    rintro w ⟨⟨typed, hterms, htyped, hty⟩, hw⟩
    refine ⟨⟨(t, ty) :: typed, by simp [hterms], ?_, ?_⟩, hw⟩
    · exact List.forall_mem_cons.mpr ⟨ht, htyped⟩
    · rw [List.getLast?_cons, hty]
      cases typed.getLast? <;> rfl

theorem ensures_args (hΓ : Γ.Sound) (es : List (Elaborated ι)) (hes : ∀ e ∈ es, e.Good Γ N scope)
    (params : List ParamDef) (hparams : ∀ p ∈ params, Γ.registry.Declarable p.ty)
    (hlength : es.length = params.length) :
    Ensures (Seen parts es) (args Γ made line es params)
      (fun terms w => (∃ typed : List (Term ι × Ty), terms = typed.map Prod.fst ∧
        (∀ p ∈ typed, p.1.WellTyped Γ N scope p.2) ∧
        List.Forall₂ (fun arg param => arg.2.Fits param.ty) typed params) ∧ Seen parts [] w)
      (Stopped parts) := by
  induction es generalizing params with
  | nil =>
    obtain rfl := List.length_eq_zero_iff.mp hlength.symm
    exact .pure fun w hw => ⟨⟨[], rfl, by simp, .nil⟩, hw⟩
  | cons e es ih =>
    cases params with
    | nil => simp at hlength
    | cons param params =>
      refine .bind (ensures_converted hΓ (hes e (by simp)) (hparams param (by simp))) fun c => ?_
      refine .of_pre (fun w hw => hw.1) fun ⟨ty, hc, hfits⟩ => ?_
      refine .bind ((ih (fun e he => hes e (by simp [he])) params
        (fun p hp => hparams p (by simp [hp])) (by simpa using hlength)).mono (fun w hw => hw.2)
        fun _ _ h => h) fun terms => .pure ?_
      rintro w ⟨⟨typed, rfl, htyped, hall⟩, hw⟩
      refine ⟨⟨(c, ty) :: typed, rfl, ?_, .cons hfits hall⟩, hw⟩
      exact List.forall_mem_cons.mpr ⟨hc, htyped⟩

theorem ensures_call (hΓ : Γ.Sound) (receiver : Ty) (name : String)
    (hreceiver : ∃ type, Γ.registry.label? receiver = some type)
    (es : List (Elaborated ι)) (hes : ∀ e ∈ es, e.Good Γ N scope) :
    Ensures (Seen parts es) (call Γ made line receiver name es)
      (fun r w => receiver.class?.bind (Γ.registry.lookupMethod? · name) = some r.1 ∧
        (∃ typed : List (Term ι × Ty), r.2 = typed.map Prod.fst ∧
          (∀ p ∈ typed, p.1.WellTyped Γ N scope p.2) ∧ r.1.Accepts typed) ∧ Seen parts [] w)
      (Stopped parts) := by
  unfold call
  split
  · exact bind_typeName hreceiver fun source => .reject fun w hw => hw.stopped _
  · next method hmethod =>
    obtain ⟨id, -, hlookup⟩ := Option.bind_eq_some_iff.mp hmethod
    obtain ⟨-, -, -, hparams, -⟩ := hΓ.coherent.of_lookupMethod? hlookup
    dsimp only
    split
    · exact .bind_reject fun w hw => hw.stopped _
    split
    · exact .bind_reject fun w hw => hw.stopped _
    refine .bind (ensures_args hΓ es hes method.params hparams (by omega)) fun terms => .pure ?_
    rintro w ⟨htyped, hw⟩
    exact ⟨hmethod, htyped, hw⟩

/-! ### Results of rules -/

/-- A rule ends with a typed form: it satisfies the typing rule over well-typed parts, and its type
can be recorded. -/
def Result (Γ : Context) (N : ι → Naming) (mark : ι) (locals : Scopes String Variable) (line : Line)
    (r : Form (Term ι) × Ty) : Prop :=
  ∃ form : Form (Term ι × Ty), r.1 = form.map Prod.fst ∧ form.Typed Γ (N mark) locals r.2 ∧
    (∃ type, Γ.registry.label? r.2 = some type) ∧
    ∀ part ∈ (form.scoped Γ line locals).children, ∀ scope, part.2 = some scope →
      part.1.1.WellTyped Γ N scope part.1.2

variable {mark : ι}

/-- A form whose parts all stand in the scope of the node. -/
theorem Result.of_map (form : Form (Term ι × Ty))
    (hscoped : form.scoped Γ line locals = form.map (·, some locals))
    (htyped : form.Typed Γ (N mark) locals ty) (hlabel : ∃ type, Γ.registry.label? ty = some type)
    (hparts : ∀ p ∈ form.children, p.1.WellTyped Γ N locals p.2) :
    Result Γ N mark locals line (form.map Prod.fst, ty) := by
  refine ⟨form, rfl, htyped, hlabel, fun part hpart scope hscope => ?_⟩
  rw [hscoped, Form.children_map] at hpart
  obtain ⟨p, hp, rfl⟩ := List.mem_map.mp hpart
  obtain rfl := Option.some_inj.mp hscope
  exact hparts p hp

theorem bind_methodRef (hΓ : Γ.Sound) {σ : Type} {pre : σ → Prop} {failed : Failure → σ → Prop}
    {post : α → σ → Prop} {next : MethodRef → Step σ α} {receiver : Ty} {name : String}
    {method : MethodDef}
    (hmethod : receiver.class?.bind (Γ.registry.lookupMethod? · name) = some method)
    (hnext : ∀ ref, Γ.Calls receiver name method ref → Ensures pre (next ref) post failed) :
    Ensures pre (Body.methodRef Γ method >>= next) post failed := by
  obtain ⟨id, -, hlookup⟩ := Option.bind_eq_some_iff.mp hmethod
  obtain ⟨owner, howner, href, -, -⟩ := hΓ.coherent.of_lookupMethod? hlookup
  rw [Body.methodRef, bind_assoc]
  refine .bind_demand howner ?_
  rw [pure_bind]
  exact hnext _ ⟨hmethod, howner, rfl, href⟩

/-- The type of a call can be recorded. -/
theorem exists_label_of_calls (hΓ : Γ.Sound) {receiver : Ty} {name : String} {method : MethodDef}
    (hmethod : receiver.class?.bind (Γ.registry.lookupMethod? · name) = some method) :
    ∃ type, Γ.registry.label? (method.returnTy.getD .noValue) = some type := by
  obtain ⟨id, -, hlookup⟩ := Option.bind_eq_some_iff.mp hmethod
  obtain ⟨-, -, -, -, hreturn⟩ := hΓ.coherent.of_lookupMethod? hlookup
  rw [hreturn]
  cases h : Γ.registry.resolveReturn? method.returnTypeName with
  | none => exact ⟨_, rfl⟩
  | some ty =>
    rcases Registry.declarable_of_resolveReturn? h with rfl | hdeclarable
    · exact ⟨_, rfl⟩
    · obtain ⟨type, hlabel, -⟩ := hΓ.coherent.indexed.exists_label hdeclarable
      exact ⟨type, hlabel⟩

theorem ensures_dispatch (hΓ : Γ.Sound) (hmade : (N made).made) (name : String)
    (object : Option (Elaborated ι)) (hobject : ∀ e ∈ object.toList, e.Good Γ N locals)
    (es : List (Elaborated ι)) (hes : ∀ e ∈ es, e.Good Γ N locals) :
    Ensures (Seen parts (object.toList ++ es)) (dispatch Γ made line object name es)
      (fun r _ => Result Γ N mark locals line r) (Stopped parts) := by
  have hreceiver : Ensures (Seen parts (object.toList ++ es)) (receiver Γ made object)
      (fun r w => r.1.WellTyped Γ N locals r.2 ∧ Seen parts es w) (Stopped parts) := by
    cases object with
    | some e =>
      rw [receiver, ← bind_pure (part e)]
      exact bind_part (hobject e (by simp)) fun t ty ht => .pure fun w hw => ⟨ht, hw⟩
    | none =>
      -- the receiver that is made is typed by what its mark says of it, not by a lookup of its name
      obtain ⟨className, hname⟩ := hΓ.current
      obtain ⟨c, hc, rfl⟩ := Option.map_eq_some_iff.mp hname
      have hlabel : Γ.registry.label? (.object Γ.currentClass) = some (.object c.name) := by
        simp [Registry.label?, hc]
      refine .bind_demand hlabel (.pure fun w hw => ⟨?_, hw⟩)
      refine .node (.symbol Vocabulary.receiver (some .receiver)) hlabel
        (.inr ⟨hmade, rfl, rfl, rfl⟩) ?_
      simp [Form.scoped, Form.map, Form.children]
  refine .bind hreceiver fun r => ?_
  obtain ⟨object, objectTy⟩ := r
  refine .of_pre (fun w hw => hw.1) fun hobject => ?_
  refine .bind ((ensures_call hΓ objectTy name (exists_label_of_wellTyped hobject) es hes).mono
    (fun w hw => hw.2) fun _ _ h => h) fun r => ?_
  obtain ⟨method, terms⟩ := r
  refine .of_pre (fun w hw => hw.1) fun hmethod => ?_
  refine bind_methodRef hΓ hmethod fun ref hcalls => .pure ?_
  rintro w ⟨-, ⟨typed, rfl, htyped, haccepts⟩, -⟩
  exact .of_map (.dispatch (some (object, objectTy)) name typed (some ref)) rfl
    ⟨(object, objectTy), method, ref, rfl, rfl, hcalls, haccepts, rfl⟩
    (exists_label_of_calls hΓ hmethod) (List.forall_mem_cons.mpr ⟨hobject, htyped⟩)

theorem ensures_staticDispatch (hΓ : Γ.Sound) (target name : String) (object : Elaborated ι)
    (hobject : object.Good Γ N locals) (es : List (Elaborated ι))
    (hes : ∀ e ∈ es, e.Good Γ N locals) :
    Ensures (Seen parts (object :: es)) (staticDispatch Γ made line object target name es)
      (fun r _ => Result Γ N mark locals line r) (Stopped parts) := by
  refine bind_part hobject fun object objectTy hobject => ?_
  refine bind_resolve (fun w hw error => hw.stopped error) fun targetTy htarget => ?_
  dsimp only
  split
  · exact bind_typeName (exists_label_of_wellTyped hobject) fun source =>
      .bind_reject fun w hw => hw.stopped _
  · next habove =>
    obtain ⟨type, hlabel, -⟩ := hΓ.coherent.indexed.exists_label ⟨target, htarget⟩
    refine .bind_demand hlabel ?_
    refine .bind (ensures_call hΓ targetTy name ⟨type, hlabel⟩ es hes) fun r => ?_
    obtain ⟨method, terms⟩ := r
    refine .of_pre (fun w hw => hw.1) fun hmethod => ?_
    refine bind_methodRef hΓ hmethod fun ref hcalls => .pure ?_
    rintro w ⟨-, ⟨typed, rfl, htyped, haccepts⟩, -⟩
    refine .of_map (.staticDispatch (object, objectTy) target name typed (some type) (some ref)) rfl
      ⟨method, ref, rfl, htarget, hlabel.symm, ?_, hcalls, haccepts⟩ ⟨type, hlabel⟩
      (List.forall_mem_cons.mpr ⟨hobject, htyped⟩)
    -- the rule looks for an ancestor only where the types differ
    by_cases heq : targetTy = objectTy
    · exact .inl heq
    · exact .inr (by simpa [heq] using habove)

/-! ### Rules with scopes -/

theorem ensures_localDefinition (hΓ : Γ.Sound) (name typeName : String)
    (hbound : (N mark).bound name) (init body : Option (Elaborated ι))
    (hinit : ∀ e ∈ init.toList, e.Good Γ N locals)
    (hbody : ∀ e ∈ body.toList, e.Good Γ N (Γ.scopeOf line name typeName locals)) :
    Ensures (Seen parts (init.toList ++ body.toList))
      (localDefinition Γ made line name typeName init body)
      (fun r _ => Result Γ N mark locals line r) (Stopped parts) := by
  refine bind_resolve (fun w hw error => hw.stopped error) fun declared hdeclared => ?_
  obtain ⟨type, hlabel, -⟩ := hΓ.coherent.indexed.exists_label ⟨typeName, hdeclared⟩
  refine .bind_demand hlabel ?_
  have hinits : Ensures (Seen parts (init.toList ++ body.toList))
      (init.mapM fun init => converted Γ made init declared line)
      (fun t? w => (∃ typed : Option (Term ι × Ty), t? = typed.map Prod.fst ∧
        (∀ p ∈ typed, p.1.WellTyped Γ N locals p.2 ∧ p.2.Fits declared)) ∧
        Seen parts body.toList w) (Stopped parts) := by
    cases init with
    | none => exact .pure fun w hw => ⟨⟨none, rfl, by simp⟩, hw⟩
    | some e =>
      refine .bind (ensures_converted hΓ (hinit e (by simp)) ⟨typeName, hdeclared⟩) fun c =>
        .pure ?_
      rintro w ⟨⟨ty, hc, hfits⟩, hw⟩
      exact ⟨⟨some (c, ty), rfl, by simpa using ⟨hc, hfits⟩⟩, hw⟩
  refine .bind hinits fun t? => .of_pre (fun w hw => hw.1) ?_
  rintro ⟨typed, rfl, htyped⟩
  -- with or without a body, only the body stands in the new scope
  have hresult (body : Option (Term ι × Ty))
      (hbody : ∀ p ∈ body, p.1.WellTyped Γ N (Γ.scopeOf line name typeName locals) p.2)
      (hty : ∃ type, Γ.registry.label? ((body.map Prod.snd).getD .noValue) = some type) :
      Result Γ N mark locals line
        ((Form.localDefinition name typeName typed body (some type)).map Prod.fst,
          (body.map Prod.snd).getD .noValue) := by
    refine ⟨.localDefinition name typeName typed body (some type), rfl,
      ⟨hbound, declared, hdeclared, hlabel.symm, fun p hp => (htyped p hp).2, rfl⟩, hty,
      fun part hpart scope hscope => ?_⟩
    simp only [Form.scoped, Form.children, List.mem_append, Option.mem_toList,
      Option.map_eq_some_iff] at hpart
    rcases hpart with ⟨p, hp, rfl⟩ | ⟨p, hp, rfl⟩
    · obtain rfl := Option.some_inj.mp hscope
      exact (htyped p hp).1
    · obtain rfl := Option.some_inj.mp hscope
      exact hbody p hp
  cases body with
  | none => exact .pure fun w hw => hresult none (by simp) ⟨_, rfl⟩
  | some e =>
    refine Ensures.mono ?_ (fun w hw => hw.2) fun _ _ h => h
    refine bind_part (hbody e (by simp)) fun t ty ht => .pure fun w hw => ?_
    exact hresult (some (t, ty)) (by simpa using ht) (exists_label_of_wellTyped ht)

theorem bind_condition {next : Term ι → Visit ι α} {construct : String} (he : e.Good Γ N locals)
    (hnext : ∀ t, t.WellTyped Γ N locals .int →
      Ensures (Seen parts pending) (next t) post (Stopped parts)) :
    Ensures (Seen parts (e :: pending)) (condition e construct line >>= next) post
      (Stopped parts) := by
  rw [condition, bind_assoc]
  refine bind_part he fun t ty ht => ?_
  dsimp only
  split
  · rw [bind_assoc]
    exact .bind_reject fun w hw => hw.stopped _
  · next hint =>
    obtain rfl : ty = .int := by simpa using hint
    rw [pure_bind]
    exact hnext t ht

theorem ensures_conditional (test thenBranch : Elaborated ι) (elseBranch : Option (Elaborated ι))
    (htest : test.Good Γ N locals) (hthen : thenBranch.Good Γ N locals.enter)
    (helse : ∀ e ∈ elseBranch.toList, e.Good Γ N locals.enter) :
    Ensures (Seen parts (test :: thenBranch :: elseBranch.toList))
      (conditional Γ line test thenBranch elseBranch)
      (fun r _ => Result Γ N mark locals line r) (Stopped parts) := by
  refine bind_condition htest fun test htest => bind_part hthen fun thenBranch thenTy hthen => ?_
  have hresult (branch : Option (Term ι × Ty))
      (hbranch : ∀ p ∈ branch, p.1.WellTyped Γ N locals.enter p.2)
      (hty : ∃ type, Γ.registry.label?
        ((branch.map fun p => Γ.registry.join thenTy p.2).getD .noValue) = some type) :
      Result Γ N mark locals line
        ((Form.conditional (test, .int) (thenBranch, thenTy) branch).map Prod.fst,
          (branch.map fun p => Γ.registry.join thenTy p.2).getD .noValue) := by
    refine ⟨.conditional (test, .int) (thenBranch, thenTy) branch, rfl, ⟨rfl, rfl⟩, hty,
      fun part hpart scope hscope => ?_⟩
    simp only [Form.scoped, Form.children, List.mem_cons, Option.mem_toList,
      Option.map_eq_some_iff] at hpart
    rcases hpart with rfl | rfl | ⟨p, hp, rfl⟩
    · obtain rfl := Option.some_inj.mp hscope
      exact htest
    · obtain rfl := Option.some_inj.mp hscope
      exact hthen
    · obtain rfl := Option.some_inj.mp hscope
      exact hbranch p hp
  cases elseBranch with
  | none => exact .pure fun w hw => hresult none (by simp) ⟨_, rfl⟩
  | some e =>
    refine bind_part (helse e (by simp)) fun t ty ht => .pure fun w hw => ?_
    refine hresult (some (t, ty)) (by simpa using ht) ?_
    -- a join is one of the two types or no value, and each of these can be recorded
    rcases Γ.registry.join_eq thenTy ty with h | h | h
    · simpa [h] using exists_label_of_wellTyped hthen
    · simpa [h] using exists_label_of_wellTyped ht
    · exact ⟨.noValue, by simp [h, Registry.label?]⟩

theorem ensures_whileLoop (test body : Elaborated ι) (htest : test.Good Γ N locals)
    (hbody : body.Good Γ N locals.enter) :
    Ensures (Seen parts [test, body]) (rule Γ made locals line (.whileLoop test body))
      (fun r _ => Result Γ N mark locals line r) (Stopped parts) := by
  refine bind_condition htest fun test htest => bind_part hbody fun body bodyTy hbody => ?_
  refine .pure fun w hw => ⟨.whileLoop (test, .int) (body, bodyTy), rfl, ⟨rfl, rfl⟩, ⟨_, rfl⟩,
    fun part hpart scope hscope => ?_⟩
  simp only [Form.scoped, Form.children, List.mem_cons, List.not_mem_nil, or_false] at hpart
  rcases hpart with rfl | rfl
  · obtain rfl := Option.some_inj.mp hscope
    exact htest
  · obtain rfl := Option.some_inj.mp hscope
    exact hbody

/-- A cast to an unknown type does not look at its operand, of which nothing is asked then. -/
theorem ensures_cast (hΓ : Γ.Sound) (typeName : String)
    (he : ∀ target, Γ.registry.resolve? typeName = some target → e.Good Γ N locals) :
    Ensures (Seen parts [e]) (rule Γ made locals line (.cast typeName e))
      (fun r _ => Result Γ N mark locals line r) (Stopped parts) := by
  simp only [rule]
  cases hresolve : Γ.registry.resolve? typeName with
  | some target =>
    obtain ⟨type, hlabel, -⟩ := hΓ.coherent.indexed.exists_label ⟨typeName, hresolve⟩
    refine bind_part (he target hresolve) fun t ty ht => .pure fun w hw => ?_
    refine .of_map (.cast typeName (t, ty)) ?_ (.inl hresolve) ⟨type, hlabel⟩
      (by simpa [Form.children] using ht)
    simp [Form.scoped, Form.map, hresolve]
  | none =>
    -- the operand is kept as it was, with no scope to be typed in
    refine .pure fun w hw => ⟨.cast typeName (e.term, .noValue), rfl, .inr ⟨hresolve, rfl, rfl⟩,
      ⟨_, rfl⟩, fun part hpart scope hscope => ?_⟩
    simp only [Form.scoped, Form.children, List.mem_singleton, hresolve, Option.map_none] at hpart
    subst hpart
    cases hscope

/-! ### Blocks -/

/-- The type of a block is that of its last item, which can be recorded. -/
theorem ensures_block (es : List (Elaborated ι)) (hes : ∀ e ∈ es, e.Good Γ N locals) :
    Ensures (Seen parts es) (rule Γ made locals line (.block es))
      (fun r _ => Result Γ N mark locals line r) (Stopped parts) := by
  refine .bind (ensures_items es hes .noValue) fun r => .pure ?_
  obtain ⟨terms, ty⟩ := r
  rintro w ⟨⟨typed, rfl, htyped, rfl⟩, -⟩
  refine .of_map (.block typed) rfl rfl ?_ htyped
  cases hlast : typed.getLast? with
  | none => exact ⟨.noValue, rfl⟩
  | some last => exact exists_label_of_wellTyped (htyped last (List.mem_of_getLast? hlast))

/-! ### Assignments and operators -/

theorem ensures_rejectVariable (hΓ : Γ.Sound) (name : String) :
    Ensures (Seen parts pending) (Body.rejectVariable Γ name line) post (Stopped parts) := by
  obtain ⟨className, hname⟩ := hΓ.current
  exact .bind_demand hname (.reject fun w hw => hw.stopped _)

theorem ensures_assignment (hΓ : Γ.Sound) (hlocals : Γ.SoundScopes locals) (written : String)
    (hwritten : (N mark).target written) (he : e.Good Γ N locals) :
    Ensures (Seen parts [e]) (assignment Γ made locals line written e)
      (fun r _ => Result Γ N mark locals line r) (Stopped parts) := by
  unfold assignment
  split
  · exact ensures_rejectVariable hΓ _
  · next target found hassigned =>
    have hdeclarable := Context.declarable_of_assigned hΓ hlocals hassigned
    refine .bind (ensures_converted hΓ he hdeclarable) fun c => .pure ?_
    rintro w ⟨⟨ty, hc, hfits⟩, -⟩
    obtain ⟨type, hlabel, -⟩ := hΓ.coherent.indexed.exists_label hdeclarable
    exact .of_map (.assignment target (c, ty) (some found.ref)) rfl
      ⟨written, found, hwritten, hassigned, rfl, hfits, rfl⟩ ⟨type, hlabel⟩
      (by simpa [Form.children] using hc)

theorem ensures_symbol (hΓ : Γ.Sound) (hlocals : Γ.SoundScopes locals) (name : String)
    (hused : (N mark).used name) :
    Ensures (Seen parts []) (symbol Γ locals line name)
      (fun r _ => Result Γ N mark locals line r) (Stopped parts) := by
  have hresult (found : Variable) (hfound : Γ.denoted? locals name = some found)
      (hlabel : ∃ type, Γ.registry.label? found.ty = some type) :
      Result Γ N mark locals line (.symbol name (some found.ref), found.ty) :=
    .of_map (.symbol name (some found.ref)) rfl (.inl ⟨hused, found, hfound, rfl, rfl⟩) hlabel
      (by simp [Form.children])
  unfold symbol
  split
  · next found hfound =>
    obtain ⟨type, hlabel, -⟩ :=
      hΓ.coherent.indexed.exists_label (Context.declarable_of_lookup? hΓ hlocals hfound)
    exact .pure fun w hw => hresult found (by simp [Context.denoted?, hfound]) ⟨type, hlabel⟩
  · next hnone =>
    split
    · next hname =>
      obtain ⟨className, hclass⟩ := hΓ.current
      obtain ⟨c, hc, rfl⟩ := Option.map_eq_some_iff.mp hclass
      have hdenoted : Γ.denoted? locals name = some ⟨.object Γ.currentClass, .receiver⟩ := by
        rw [Context.denoted?, hnone]
        exact if_pos hname
      exact .pure fun w hw => hresult _ hdenoted ⟨.object c.name, by simp [Registry.label?, hc]⟩
    · exact ensures_rejectVariable hΓ name

theorem ensures_rejectOperand (ht : t.WellTyped Γ N scope ty) (other : Ty) :
    Ensures (Seen parts pending) (rejectOperand Γ t ty other) post (Stopped parts) := by
  unfold rejectOperand
  split
  · exact bind_typeName (exists_label_of_wellTyped ht) fun source => .reject fun w hw =>
      hw.stopped _
  · exact .reject fun w hw => hw.stopped _

theorem ensures_addition (hΓ : Γ.Sound) (lhs rhs : Elaborated ι) (hlhs : lhs.Good Γ N locals)
    (hrhs : rhs.Good Γ N locals) :
    Ensures (Seen parts [lhs, rhs]) (addition Γ made line lhs rhs)
      (fun r _ => Result Γ N mark locals line r) (Stopped parts) := by
  refine bind_part hlhs fun lhs lhsTy hlhs => bind_part hrhs fun rhs rhsTy hrhs => ?_
  have hresult (lhs rhs : Term ι) (ty : Ty) (hlhs : lhs.WellTyped Γ N locals ty)
      (hrhs : rhs.WellTyped Γ N locals ty) :
      Result Γ N mark locals line (.addition lhs rhs, ty) :=
    .of_map (.addition (lhs, ty) (rhs, ty)) rfl ⟨rfl, rfl⟩ (exists_label_of_wellTyped hlhs)
      (by simpa [Form.children] using ⟨hlhs, hrhs⟩)
  have hstring := hΓ.coherent.declarable_string
  dsimp only
  split
  · next heq =>
    subst heq
    exact .pure fun w hw => hresult lhs rhs lhsTy hlhs hrhs
  split
  · next h =>
    obtain ⟨rfl, rfl⟩ := h
    exact .bind (ensures_wrapInCast hΓ hlhs hstring) fun c => .pure fun w hw =>
      hresult c rhs .string hw.1 hrhs
  split
  · next h =>
    obtain ⟨rfl, rfl⟩ := h
    exact .bind (ensures_wrapInCast hΓ hrhs hstring) fun c => .pure fun w hw =>
      hresult lhs c .string hlhs hw.1
  split
  · exact ensures_rejectOperand hlhs rhsTy
  split
  · exact ensures_rejectOperand hrhs lhsTy
  · -- both are a number or a text, and the cases above leave none of these
    grind

theorem ensures_equality (hΓ : Γ.Sound) (lhs rhs : Elaborated ι) (hlhs : lhs.Good Γ N locals)
    (hrhs : rhs.Good Γ N locals) :
    Ensures (Seen parts [lhs, rhs]) (do return (← equality Γ made line lhs rhs, Ty.int))
      (fun r _ => Result Γ N mark locals line r) (Stopped parts) := by
  refine .bind (?_ : Ensures _ _ (fun f _ => Result Γ N mark locals line (f, .int)) _)
    fun f => .pure fun w hw => hw
  refine bind_part hlhs fun lhs lhsTy hlhs => bind_part hrhs fun rhs rhsTy hrhs => ?_
  have hresult (lhs rhs : Term ι) (lhsTy rhsTy : Ty) (hlhs : lhs.WellTyped Γ N locals lhsTy)
      (hrhs : rhs.WellTyped Γ N locals rhsTy) (hcomparable : lhsTy.Comparable rhsTy) :
      Result Γ N mark locals line (.equality lhs rhs, .int) :=
    .of_map (.equality (lhs, lhsTy) (rhs, rhsTy)) rfl ⟨hcomparable, rfl⟩ ⟨_, rfl⟩
      (by simpa [Form.children] using ⟨hlhs, hrhs⟩)
  have hstring := hΓ.coherent.declarable_string
  have hobject := hΓ.coherent.declarable_object
  dsimp only
  split
  · next heq => exact .pure fun w hw => hresult lhs rhs lhsTy rhsTy hlhs hrhs (.inl heq)
  split
  · next h =>
    obtain ⟨rfl, rfl⟩ := h
    exact .bind (ensures_wrapInCast hΓ hlhs hstring) fun c => .pure fun w hw =>
      hresult c rhs .string .string hw.1 hrhs (.inl rfl)
  split
  · next h =>
    obtain ⟨rfl, rfl⟩ := h
    exact .bind (ensures_wrapInCast hΓ hrhs hstring) fun c => .pure fun w hw =>
      hresult lhs c .string .string hlhs hw.1 (.inl rfl)
  split
  · exact .reject fun w hw => hw.stopped _
  -- from here on neither side is a number, and whatever is cast is cast to `Object`
  next hint =>
  obtain ⟨hl, hr⟩ := not_or.mp hint
  split
  · next h =>
    exact .pure fun w hw => hresult lhs rhs lhsTy rhsTy hlhs hrhs (.inr ⟨hl, hr, by tauto⟩)
  split
  · exact .bind (ensures_wrapInCast hΓ hlhs hobject) fun c => .pure fun w hw =>
      hresult c rhs _ rhsTy hw.1 hrhs (.inr ⟨by simp, hr, .inl rfl⟩)
  split
  · exact .bind (ensures_wrapInCast hΓ hrhs hobject) fun c => .pure fun w hw =>
      hresult lhs c lhsTy _ hlhs hw.1 (.inr ⟨hl, by simp, .inr (.inl rfl)⟩)
  · next hlclass hrclass =>
    refine .pure fun w hw => hresult lhs rhs lhsTy rhsTy hlhs hrhs (.inr ⟨hl, hr, ?_⟩)
    exact .inr (.inr ⟨by simpa using hlclass, by simpa using hrclass⟩)

theorem ensures_binary (operator : BinaryOperator) (lhs rhs : Elaborated ι)
    (hlhs : lhs.Good Γ N locals) (hrhs : rhs.Good Γ N locals) :
    Ensures (Seen parts [lhs, rhs]) (binary Γ line operator lhs rhs)
      (fun r _ => Result Γ N mark locals line r) (Stopped parts) := by
  -- each side has to be a number, or the rule stops there
  have hnumber (t : Term ι) (ty : Ty) (ht : t.WellTyped Γ N locals ty) {next : Unit → Visit ι _}
      (hnext : ty = .int → Ensures (Seen parts []) (next ())
        (fun r _ => Result Γ N mark locals line r) (Stopped parts)) :
      Ensures (Seen parts []) (number Γ ty line >>= next)
        (fun r _ => Result Γ N mark locals line r) (Stopped parts) := by
    unfold number
    split
    · rw [bind_assoc]
      exact bind_typeName (exists_label_of_wellTyped ht) fun source =>
        .bind_reject fun w hw => hw.stopped _
    · next hint =>
      rw [pure_bind]
      exact hnext (by simpa using hint)
  refine bind_part hlhs fun lhs lhsTy hlhs => bind_part hrhs fun rhs rhsTy hrhs => ?_
  refine hnumber lhs lhsTy hlhs fun hl => hnumber rhs rhsTy hrhs fun hr => .pure fun w hw => ?_
  exact .of_map (.binary operator (lhs, lhsTy) (rhs, rhsTy)) rfl ⟨hl, hr, rfl⟩ ⟨_, rfl⟩
    (by simpa [Form.children] using ⟨hlhs, hrhs⟩)

/-! ### Every form -/

end Visit

/-- The names in a form are as they are said to be. -/
def Naming.Holds {κ : Type} (N : Naming) : Form κ → Prop
  | .assignment target _ _ => N.target target
  | .localDefinition name _ _ _ _ => N.bound name
  | .symbol name _ => N.used name
  | _ => True

/-- The names in a term are as they are said to be, at each node. -/
inductive Term.Named (N : ι → Naming) : Term ι → Prop where
  | node {mark line form type} (holds : (N mark).Holds form)
      (parts : ∀ part ∈ form.children, Named N part) : Named N (.node mark line form type)

namespace Visit

variable {Γ : Context} {N : ι → Naming} {made mark : ι} {locals : Scopes String Variable}
variable {parts : List (Elaborated ι)} {line : Line}

theorem good_map {ts : List (Term ι)} (h : ∀ t ∈ ts, (t.elaborate Γ made locals).Good Γ N locals) :
    ∀ e ∈ ts.map (·.elaborate Γ made locals), e.Good Γ N locals := by
  intro e he
  obtain ⟨t, ht, rfl⟩ := List.mem_map.mp he
  exact h t ht

theorem good_toList {t? : Option (Term ι)}
    (h : ∀ t ∈ t?, (t.elaborate Γ made locals).Good Γ N locals) :
    ∀ e ∈ (t?.map (·.elaborate Γ made locals)).toList, e.Good Γ N locals := by
  intro e he
  obtain ⟨t, ht, rfl⟩ := Option.map_eq_some_iff.mp (Option.mem_toList.mp he)
  exact h t ht

/-- The rule of each form does not fault, and ends with a typed form. -/
theorem ensures_rule (hΓ : Γ.Sound) (hlocals : Γ.SoundScopes locals) (hmade : (N made).made)
    (form : Form (Term ι)) (hholds : (N mark).Holds form)
    (hparts : ∀ part ∈ (form.scoped Γ line locals).children, ∀ scope, part.2 = some scope →
      (part.1.elaborate Γ made scope).Good Γ N scope) :
    Ensures (Seen parts (form.elaborate Γ made line locals).children)
      (rule Γ made locals line (form.elaborate Γ made line locals))
      (fun r _ => Result Γ N mark locals line r) (Stopped parts) := by
  -- in each case the parts are found, with their scopes, among the scoped children of the form
  have hgood {t : Term ι} {scope : Scopes String Variable}
      (h : (t, some scope) ∈ (form.scoped Γ line locals).children) :
      (t.elaborate Γ made scope).Good Γ N scope := hparts _ h scope rfl
  cases form with
  | block terms =>
    simp only [Form.elaborate, Term.elaborateAll_eq_map]
    exact ensures_block _ (good_map fun t ht => hgood (List.mem_map_of_mem ht))
  | localDefinition name typeName init body =>
    simp only [Form.elaborate, Term.elaborate?_eq_map]
    refine ensures_localDefinition hΓ name typeName hholds _ _
      (good_toList fun t ht => hgood ?_) (good_toList fun t ht => hgood ?_)
    · simp [Form.scoped, Form.children, Option.mem_def.mp ht]
    · simp [Form.scoped, Form.children, Option.mem_def.mp ht]
  | dispatch receiver name args =>
    simp only [Form.elaborate, Term.elaborate?_eq_map, Term.elaborateAll_eq_map]
    refine ensures_dispatch hΓ hmade name _ (good_toList fun t ht => hgood ?_) _
      (good_map fun t ht => hgood ?_)
    · simp [Form.scoped, Form.map, Form.children, Option.mem_def.mp ht]
    · simp [Form.scoped, Form.map, Form.children, ht]
  | staticDispatch receiver className name args =>
    simp only [Form.elaborate, Term.elaborateAll_eq_map]
    exact ensures_staticDispatch hΓ className name _ (hgood List.mem_cons_self) _
      (good_map fun t ht => hgood (List.mem_cons_of_mem _ (List.mem_map_of_mem ht)))
  | conditional condition thenBranch elseBranch =>
    simp only [Form.elaborate, Term.elaborate?_eq_map]
    refine ensures_conditional _ _ _ (hgood ?_) (hgood ?_) (good_toList fun t ht => hgood ?_)
    · simp [Form.scoped, Form.children]
    · simp [Form.scoped, Form.children]
    · simp [Form.scoped, Form.children, Option.mem_def.mp ht]
  | whileLoop condition body =>
    exact ensures_whileLoop _ _ (hgood List.mem_cons_self)
      (hgood (List.mem_cons_of_mem _ List.mem_cons_self))
  | cast typeName operand =>
    simp only [Form.elaborate]
    refine ensures_cast hΓ typeName fun target hresolve => ?_
    simp only [hresolve]
    exact hgood (by simp [Form.scoped, Form.children, hresolve])
  | newObject typeName =>
    refine bind_resolve (fun w hw error => hw.stopped error) fun ty hty => ?_
    dsimp only
    split
    · exact .bind_reject fun w hw => hw.stopped _
    · next hint =>
      obtain ⟨type, hlabel, -⟩ := hΓ.coherent.indexed.exists_label ⟨typeName, hty⟩
      exact .pure fun w hw => .of_map (.newObject typeName) rfl ⟨hty, hint⟩ ⟨type, hlabel⟩
        (by simp [Form.children])
  | substring subject first last =>
    refine bind_part (hgood List.mem_cons_self) fun subject subjectTy hsubject => ?_
    refine bind_part (hgood (List.mem_cons_of_mem _ List.mem_cons_self))
      fun first firstTy hfirst => ?_
    refine bind_part (hgood (List.mem_cons_of_mem _ (List.mem_cons_of_mem _ List.mem_cons_self)))
      fun last lastTy hlast => .pure fun w hw => ?_
    obtain ⟨type, hlabel, -⟩ := hΓ.coherent.indexed.exists_label hΓ.coherent.declarable_string
    exact .of_map (.substring (subject, subjectTy) (first, firstTy) (last, lastTy)) rfl rfl
      ⟨type, hlabel⟩ (by simpa [Form.children] using ⟨hsubject, hfirst, hlast⟩)
  | assignment target value =>
    exact ensures_assignment hΓ hlocals target hholds (hgood List.mem_cons_self)
  | addition lhs rhs =>
    exact ensures_addition hΓ _ _ (hgood List.mem_cons_self)
      (hgood (List.mem_cons_of_mem _ List.mem_cons_self))
  | binary operator lhs rhs =>
    exact ensures_binary operator _ _ (hgood List.mem_cons_self)
      (hgood (List.mem_cons_of_mem _ List.mem_cons_self))
  | unary operator operand =>
    refine bind_part (hgood List.mem_cons_self) fun t ty ht => .pure fun w hw => ?_
    exact .of_map (.unary operator (t, ty)) rfl rfl ⟨_, rfl⟩ (by simpa [Form.children] using ht)
  | equality lhs rhs =>
    exact ensures_equality hΓ _ _ (hgood List.mem_cons_self)
      (hgood (List.mem_cons_of_mem _ List.mem_cons_self))
  | symbol name => exact ensures_symbol hΓ hlocals name hholds
  | intConstant value =>
    exact .pure fun w hw => .of_map (.intConstant value) rfl rfl ⟨_, rfl⟩ (by simp [Form.children])
  | stringConstant value =>
    obtain ⟨type, hlabel, -⟩ := hΓ.coherent.indexed.exists_label hΓ.coherent.declarable_string
    exact .pure fun w hw => .of_map (.stringConstant value) rfl rfl ⟨type, hlabel⟩
      (by simp [Form.children])
  | voidConstant =>
    exact .pure fun w hw => .of_map .voidConstant rfl rfl ⟨_, rfl⟩ (by simp [Form.children])

/-- What is left of a node after its rule has run. -/
theorem ensures_recorded (hΓ : Γ.Sound) (hlocals : Γ.SoundScopes locals) (hmade : (N made).made)
    (form : Form (Term ι)) (hholds : (N mark).Holds form)
    (hparts : ∀ part ∈ (form.scoped Γ line locals).children, ∀ scope, part.2 = some scope →
      (part.1.elaborate Γ made scope).Good Γ N scope) :
    Ensures (Seen (form.elaborate Γ made line locals).children
        (form.elaborate Γ made line locals).children)
      (recorded Γ made locals line (form.elaborate Γ made line locals))
      (fun r _ => Result Γ N mark locals line (r.1, r.2.1) ∧
        Γ.registry.label? r.2.1 = some r.2.2)
      (Stopped (form.elaborate Γ made line locals).children) := by
  refine .bind (ensures_rule hΓ hlocals hmade form hholds hparts) fun ⟨form', ty⟩ => ?_
  refine .of_pre (fun w hw => hw) fun hresult => ?_
  obtain ⟨typed, hform, htyped, ⟨type, hlabel⟩, hwell⟩ := hresult
  exact .bind_demand hlabel (.pure fun w hw => ⟨hw, hlabel⟩)

end Visit

/-- Nothing is said of the names. -/
def Naming.any : Naming := ⟨fun _ => True, fun _ => True, fun _ => True, True⟩

theorem Naming.holds_any {κ : Type} (form : Form κ) : Naming.any.Holds form := by
  cases form <;> trivial

theorem Term.named_any (t : Term ι) : t.Named fun _ => .any := by
  induction t using Term.induction with
  | node mark line form type ih => exact .node (Naming.holds_any form) ih

variable {Γ : Context} {N : ι → Naming} {made : ι} {locals : Scopes String Variable} {t : Term ι}

/-- Elaboration in a sound context does not fault, and what it leaves after a success is well
typed. -/
theorem Term.good_elaborate (hΓ : Γ.Sound) (hmade : (N made).made) (hN : t.Named N)
    (hlocals : Γ.SoundScopes locals) : (t.elaborate Γ made locals).Good Γ N locals := by
  induction t using Term.induction generalizing locals with
  | node mark line form type ih =>
    cases hN with
    | node holds hnamed =>
      have hparts : ∀ part ∈ (form.scoped Γ line locals).children, ∀ scope, part.2 = some scope →
          (part.1.elaborate Γ made scope).Good Γ N scope := by
        intro part hpart scope hscope
        have hmem := Form.mem_children_of_scoped hpart
        exact ih part.1 hmem (hnamed part.1 hmem) (hlocals.of_mem_scoped hpart hscope)
      have hrun := Visit.ensures_recorded hΓ hlocals hmade form holds hparts
      have hstart := Visit.seen_nil (form.elaborate Γ made line locals).children
      rw [Term.elaborate]
      rcases hran : (Visit.recorded Γ made locals line
        (form.elaborate Γ made line locals)).runFrom [] with ⟨failure | ⟨form', ty, type'⟩, w⟩
      · obtain ⟨-, hfault⟩ := hrun.error hstart hran
        exact ⟨fun ty h => (nomatch h), fun f h => hfault f (Except.error.inj h)⟩
      · obtain ⟨⟨typed, rfl, htyped, -, hwell⟩, hlabel⟩ := hrun.ok hstart hran
        refine ⟨fun ty' h => ?_, fun f h => nomatch h⟩
        obtain rfl := Except.ok.inj h
        exact .node typed hlabel htyped hwell

/-- What the rule of a node ensures, with nothing assumed of its parts. -/
theorem Visit.ensures_node {mark : ι} {line : Line} {form : Form (Term ι)} {type : Option TypeName}
    (hΓ : Γ.Sound) (hmade : (N made).made) (hN : (Term.node mark line form type).Named N)
    (hlocals : Γ.SoundScopes locals) :
    Ensures (Seen (form.elaborate Γ made line locals).children
        (form.elaborate Γ made line locals).children)
      (recorded Γ made locals line (form.elaborate Γ made line locals))
      (fun r _ => Result Γ N mark locals line (r.1, r.2.1) ∧
        Γ.registry.label? r.2.1 = some r.2.2)
      (Stopped (form.elaborate Γ made line locals).children) := by
  cases hN with
  | node holds hnamed =>
    refine ensures_recorded hΓ hlocals hmade form holds fun part hpart scope hscope => ?_
    exact Term.good_elaborate hΓ hmade (hnamed part.1 (Form.mem_children_of_scoped hpart))
      (hlocals.of_mem_scoped hpart hscope)

end Lcpl

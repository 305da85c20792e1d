import Lcpl.Proofs.Analysis.Declarations
import Lcpl.Proofs.Analysis.Owned
import Lcpl.Proofs.Body.Root

/-!
# Checking features

Attributes and methods are checked alike: the feature is compared with those of the ancestors, and
then its root is checked, if it has one. Before the check the root reads as some term. After a
success it reads as a well-typed term whose type is the expected one. After a failure it reads as
what elaboration has left.

## Main definitions

* `Feature.admission`, `Feature.setting?` — what a feature is compared with, and how its root is
  checked
* `Bodies` — the registry, and what is known of the nodes in front of the check
* `Bodies.Raw`, `Bodies.Checked`, `Bodies.Failed` — a feature before and after its check

## Main results

* `Bodies.keeps_check` — the check of a feature
* `Bodies.keeps_checkClass` — the check of a class, attributes before methods
-/

namespace Lcpl

variable {ι : Type}

namespace Feature

/-- The comparison of a feature with those of the ancestors. -/
def admission (registry : Registry) (id : ClassId) : Feature → Except Failure Unit
  | .method m => registry.checkOverride id m.name
  | .attribute a => registry.checkRedefinition id a.name

/-- The context in which the root of a feature is checked, and the use of its value. -/
def setting? (registry : Registry) (id : ClassId) : Feature → Option (Context × Expectation)
  | .method m => (registry.ownMethod? id m.name).map fun method =>
      (⟨registry, id, m.line, method.params⟩, .ofReturn method.returnTy m.line)
  | .attribute a => (registry.ownAttribute? id a.name).map fun attr =>
      (⟨registry, id, a.line, []⟩, .initial attr.ty a.line)

/-- The feature with another root. -/
def withRoot (root : ExprId) : Feature → Feature
  | .method m => .method { m with body := some root }
  | .attribute a => .attribute { a with init := some root }

/-- The feature with its receiver recorded, as it is done in front of an initial value. -/
def prepared (className : String) : Feature → Feature
  | .method m => .method m
  | .attribute a => .attribute { a with recordedSelf := some (.receiver a.line className) }

/-- The feature after its root was checked: the root is replaced if it was accepted. -/
def afterRoot (result : Except Failure ExprId) (f : Feature) : Feature :=
  match result with
  | .ok root => f.withRoot root
  | .error _ => f

/-- The check of a feature, by its kind. -/
def check (registry : Registry) (id : ClassId) : Feature → Step (Checking × Feature) Unit
  | .method _ => onMethod (Analysis.checkMethod registry id)
  | .attribute _ => onAttribute (Analysis.checkAttribute registry id)

variable {registry : Registry} {id : ClassId} {f : Feature} {Γ : Context} {e : Expectation}
variable {className : String} {a : Arena} {log : Array Event} {root : ExprId}

theorem runFrom_check_of_error {failure : Failure}
    (hadmission : f.admission registry id = .error failure) :
    (f.check registry id).runFrom (⟨a, log⟩, f) = (.error failure, ⟨a, log⟩, f) := by
  rcases f with m | attr
  · have hadmission : registry.checkOverride id m.name = .error failure := hadmission
    simp [check, runFrom_onMethod, Analysis.methodBy, Step.runFrom_bind, hadmission]
  · have hadmission : registry.checkRedefinition id attr.name = .error failure := hadmission
    simp [check, runFrom_onAttribute, Analysis.attributeBy, Step.runFrom_bind, hadmission]

theorem runFrom_check_none (hadmission : f.admission registry id = .ok ()) (hroot : f.root = none) :
    (f.check registry id).runFrom (⟨a, log⟩, f) = (.ok (), ⟨a, log⟩, f) := by
  rcases f with m | attr
  · have hadmission : registry.checkOverride id m.name = .ok () := hadmission
    have hroot : m.body = none := hroot
    simp [check, runFrom_onMethod, Analysis.methodBy, Step.runFrom_bind, hadmission, hroot]
  · have hadmission : registry.checkRedefinition id attr.name = .ok () := hadmission
    have hroot : attr.init = none := hroot
    simp [check, runFrom_onAttribute, Analysis.attributeBy, Step.runFrom_bind, hadmission, hroot]

theorem runFrom_body {α β : Type} {step : Body β} {result : Except Failure β} {s : Session} (x : α)
    (h : step.runFrom ⟨a, .empty, log⟩ = (result, s)) :
    (Analysis.body step).runFrom (⟨a, log⟩, x) = (result, ⟨s.arena, s.log⟩, x) := by
  rw [Analysis.body, Step.runFrom_within]
  dsimp only
  rw [h]

/-- The check of a feature with a root. -/
theorem runFrom_check_some {result : Except Failure ExprId} {s : Session}
    (hadmission : f.admission registry id = .ok ()) (hroot : f.root = some root)
    (hsetting : f.setting? registry id = some (Γ, e)) (hname : registry.name? id = some className)
    (hrun : (e.check Γ root).runFrom ⟨a, .empty, log⟩ = (result, s)) :
    (f.check registry id).runFrom (⟨a, log⟩, f) =
      (result.map fun _ => (), ⟨s.arena, s.log⟩, (f.prepared className).afterRoot result) := by
  rcases f with m | attr
  · have hadmission : registry.checkOverride id m.name = .ok () := hadmission
    have hroot : m.body = some root := hroot
    obtain ⟨method, hmethod, hset⟩ := Option.map_eq_some_iff.mp hsetting
    obtain ⟨rfl, rfl⟩ := Prod.mk.inj hset
    have hbody := runFrom_body m hrun
    -- every step in front of the body goes well
    rw [check, runFrom_onMethod, Analysis.checkMethod, Analysis.methodBy,
      Step.runFrom_bind_of_ok (Step.runFrom_get _)]
    dsimp only
    rw [hadmission, Step.runFrom_bind_of_ok (Step.runFrom_ofExcept _ _), hroot]
    dsimp only
    rw [hmethod, Step.runFrom_bind_of_ok (Step.runFrom_demand_some _ _ _)]
    cases result with
    | error failure =>
      rw [Step.runFrom_bind_of_error hbody]
      rfl
    | ok root =>
      rw [Step.runFrom_bind_of_ok hbody]
      rfl
  · obtain ⟨line, name, typeName, init, recordedType, recordedSelf⟩ := attr
    obtain rfl : init = some root := hroot
    have hallowed : registry.checkRedefinition id name = .ok () := hadmission
    obtain ⟨known, hknown, hset⟩ := Option.map_eq_some_iff.mp hsetting
    obtain ⟨rfl, rfl⟩ := Prod.mk.inj hset
    -- the receiver is recorded before the initial value is checked, so it stays after a failure
    have hbody := runFrom_body (Attribute.mk line name typeName (some root) recordedType
      (some (.receiver line className))) hrun
    rw [check, runFrom_onAttribute, Analysis.checkAttribute, Analysis.attributeBy,
      Step.runFrom_bind_of_ok (Step.runFrom_get _)]
    dsimp only
    rw [hallowed, Step.runFrom_bind_of_ok (Step.runFrom_ofExcept _ _), hknown,
      Step.runFrom_bind_of_ok (Step.runFrom_demand_some _ _ _), hname,
      Step.runFrom_bind_of_ok (Step.runFrom_demand_some _ _ _),
      Step.runFrom_bind_of_ok (Step.runFrom_modify _ _)]
    cases result with
    | error failure =>
      rw [Step.runFrom_bind_of_error hbody]
      rfl
    | ok root =>
      rw [Step.runFrom_bind_of_ok hbody]
      rfl

/-- The root of a feature is checked in its class. -/
theorem context_of_setting? (hsetting : f.setting? registry id = some (Γ, e)) :
    Γ.registry = registry ∧ Γ.currentClass = id := by
  rcases f with m | attr
  · obtain ⟨method, -, hset⟩ := Option.map_eq_some_iff.mp hsetting
    obtain ⟨rfl, rfl⟩ := Prod.mk.inj hset
    exact ⟨rfl, rfl⟩
  · obtain ⟨known, -, hset⟩ := Option.map_eq_some_iff.mp hsetting
    obtain ⟨rfl, rfl⟩ := Prod.mk.inj hset
    exact ⟨rfl, rfl⟩

/-- The root of a feature is checked in a sound context. -/
theorem sound_setting (hr : registry.Coherent) (hname : registry.name? id = some className)
    (hsetting : f.setting? registry id = some (Γ, e)) :
    Γ.Sound ∧ Γ.registry = registry ∧ e.Declared registry := by
  rcases f with m | attr
  · obtain ⟨method, hmethod, hset⟩ := Option.map_eq_some_iff.mp hsetting
    obtain ⟨rfl, rfl⟩ := Prod.mk.inj hset
    obtain ⟨c, hc, hmethod⟩ := Option.bind_eq_some_iff.mp hmethod
    have howns := hr.methods hc method (List.mem_of_find?_eq_some hmethod)
    refine ⟨⟨hr, ⟨className, hname⟩, fun p hp => ⟨p.typeName, howns.params p hp⟩⟩, rfl, ?_⟩
    -- where nothing is returned, nothing is expected of the body
    rcases hreturn : method.returnTy with _ | ty
    · trivial
    · have hdeclared := Registry.declarable_of_resolveReturn? (howns.returnTy.symm.trans hreturn)
      cases ty with
      | noValue => trivial
      | _ => exact hdeclared.resolve_left (by simp)
  · obtain ⟨known, hknown, hset⟩ := Option.map_eq_some_iff.mp hsetting
    obtain ⟨rfl, rfl⟩ := Prod.mk.inj hset
    obtain ⟨c, hc, hknown⟩ := Option.bind_eq_some_iff.mp hknown
    have howns := hr.attributes hc known (List.mem_of_find?_eq_some hknown)
    exact ⟨⟨hr, ⟨className, hname⟩, by simp⟩, rfl, known.typeName, howns.type⟩

theorem exists_setting (h : registry.Declares id f) :
    ∃ Γ e, f.setting? registry id = some (Γ, e) := by
  rcases f with m | attr
  · obtain ⟨method, hmethod, -⟩ := h
    exact ⟨_, _, by rw [setting?, hmethod]; rfl⟩
  · obtain ⟨known, hknown, -⟩ := h
    exact ⟨_, _, by rw [setting?, hknown]; rfl⟩

@[simp] theorem root_withRoot (root : ExprId) (f : Feature) :
    (f.withRoot root).root = some root := by
  rcases f with m | a <;> rfl

@[simp] theorem root_prepared (className : String) (f : Feature) :
    (f.prepared className).root = f.root := by
  rcases f with m | a <;> rfl

theorem prepared_prepared (className : String) (f : Feature) :
    (f.prepared className).prepared className = f.prepared className := by
  rcases f with m | a <;> rfl

theorem prepared_withRoot (className : String) (root : ExprId) (f : Feature) :
    ((f.prepared className).withRoot root).prepared className =
      (f.prepared className).withRoot root := by
  rcases f with m | a <;> rfl

/-- Whether the feature is a method. -/
def isMethod : Feature → Bool
  | .method _ => true
  | .attribute _ => false

theorem check_of_isMethod (h : f.isMethod = true) :
    f.check registry id = onMethod (Analysis.checkMethod registry id) := by
  rcases f with m | a
  · rfl
  · cases h

theorem check_of_not_isMethod (h : f.isMethod = false) :
    f.check registry id = onAttribute (Analysis.checkAttribute registry id) := by
  rcases f with m | a
  · cases h
  · rfl

/-- What a check changes of a feature: its root, and the receiver that is recorded. -/
inductive Revises : Feature → Feature → Prop where
  | method (m : Method) (body : Option ExprId) : Revises (.method m) (.method { m with body })
  | initial (a : Attribute) (init : Option ExprId) (recordedSelf : Option Param) :
      Revises (.attribute a) (.attribute { a with init, recordedSelf })

theorem revises_self (f : Feature) : f.Revises f := by
  rcases f with m | a
  · exact .method m m.body
  · exact .initial a a.init a.recordedSelf

theorem revises_prepared (f : Feature) (className : String) : f.Revises (f.prepared className) := by
  rcases f with m | a
  · exact .method m m.body
  · exact .initial a a.init _

theorem revises_withRoot (f : Feature) (className : String) (root : ExprId) :
    f.Revises ((f.prepared className).withRoot root) := by
  rcases f with m | a
  · exact .method m _
  · exact .initial a _ _

namespace Revises

variable {f' : Feature}

theorem isMethod_eq (h : f.Revises f') : f'.isMethod = f.isMethod := by cases h <;> rfl

theorem setting?_eq (h : f.Revises f') : f'.setting? registry id = f.setting? registry id := by
  cases h <;> rfl

theorem admission_eq (h : f.Revises f') : f'.admission registry id = f.admission registry id := by
  cases h <;> rfl

theorem declares (h : f.Revises f') (hf : registry.Declares id f) : registry.Declares id f' := by
  cases h <;> exact hf

end Revises

end Feature

/-! ### A feature and its check -/

/-- What the check of the bodies works with: a coherent registry, and what is known of the names in
a node by its mark. The nodes with handles from `size` on are made by the check. -/
structure Bodies (ι : Type) where
  registry : Registry
  naming : ι → Naming
  made : ι
  mark : ExprId → ι
  size : Nat
  coherent : registry.Coherent
  naming_made : (naming made).made
  mark_new : ∀ x : ExprId, size ≤ x.index → mark x = made

namespace Bodies

variable (b : Bodies ι) (id : ClassId)

/-- The registry knows the class and the feature. The arena has the nodes from which the check
began. -/
structure Known (a : Arena) (f : Feature) : Prop where
  className : ∃ name, b.registry.name? id = some name
  declares : b.registry.Declares id f
  size_le : b.size ≤ a.size

/-- The root of the feature reads as a term with `P`, if it has a root. -/
def Rooted (P : Term ι → Prop) (a : Arena) (f : Feature) (ids : List ExprId) : Prop :=
  f.root = none ∧ ids = [] ∨
    ∃ root t, f.root = some root ∧ a.Reads b.mark root t ids ∧ P t

/-- A feature in front of its check. -/
structure Raw (a : Arena) (f : Feature) (ids : List ExprId) : Prop where
  known : b.Known id a f
  rooted : b.Rooted (Term.Named b.naming) a f ids

/-- The receiver is recorded where an initial value sees it. -/
def Prepared (f : Feature) : Prop :=
  f.root ≠ none → ∀ name, b.registry.name? id = some name → f.prepared name = f

/-- A feature that was accepted. Its root is well typed, and its value needs no conversion. -/
structure Checked (a : Arena) (f : Feature) (ids : List ExprId) : Prop where
  known : b.Known id a f
  admission : f.admission b.registry id = .ok ()
  prepared : b.Prepared id f
  rooted : b.Rooted (fun t => ∃ Γ e ty, f.setting? b.registry id = some (Γ, e) ∧
    t.WellTyped Γ b.naming .empty ty ∧ e.MetBy ty) a f ids

/-- A feature that was rejected, by itself or because of its root. In the second case the root is
what its elaboration has left. -/
structure Failed (failure : Failure) (a : Arena) (f : Feature) (ids : List ExprId) : Prop where
  known : b.Known id a f
  cause : f.admission b.registry id = .error failure ∧ b.Rooted (Term.Named b.naming) a f ids ∨
    f.admission b.registry id = .ok () ∧ b.Prepared id f ∧ f.root ≠ none ∧
      b.Rooted (fun t => ∃ Γ e before, f.setting? b.registry id = some (Γ, e) ∧
        before.Named b.naming ∧ e.elaborate Γ b.made before = (.error failure, t)) a f ids

variable {b id} {P : Term ι → Prop} {a c : Arena} {f f' : Feature} {ids : List ExprId}
variable {failure : Failure}

theorem Known.revise (h : b.Known id a f) (hf : f.Revises f') (hsize : a.size ≤ c.size) :
    b.Known id c f' :=
  ⟨h.className, hf.declares h.declares, h.size_le.trans hsize⟩

theorem Rooted.lt_size (h : b.Rooted P a f ids) : ∀ i ∈ ids, i.index < a.size := by
  rcases h with ⟨-, rfl⟩ | ⟨root, t, -, hread, -⟩
  · simp
  · exact hread.lt_size

theorem Rooted.of_get? (h : b.Rooted P a f ids) (hget : ∀ i ∈ ids, c.get? i = a.get? i) :
    b.Rooted P c f ids := by
  rcases h with h | ⟨root, t, hroot, hread, ht⟩
  · exact .inl h
  · exact .inr ⟨root, t, hroot, hread.of_get? hget, ht⟩

theorem framed_raw : Owned.Framed (b.Raw id) where
  lt_size h := h.rooted.lt_size
  of_get? h hsize hget := ⟨h.known.revise (Feature.revises_self _) hsize, h.rooted.of_get? hget⟩

theorem framed_checked : Owned.Framed (b.Checked id) where
  lt_size h := h.rooted.lt_size
  of_get? h hsize hget := ⟨h.known.revise (Feature.revises_self _) hsize, h.admission, h.prepared,
    h.rooted.of_get? hget⟩

/-- The check of a feature. -/
theorem Raw.exists_check (h : b.Raw id a f ids) (hnodup : ids.Nodup) (log : Array Event) :
    ∃ c f' ids' log', f.Revises f' ∧ a.Grows ids c ids' ∧
      ((f.check b.registry id).runFrom (⟨a, log⟩, f) = (.ok (), ⟨c, log'⟩, f') ∧
          b.Checked id c f' ids' ∨
        ∃ failure, (f.check b.registry id).runFrom (⟨a, log⟩, f) = (.error failure, ⟨c, log'⟩, f') ∧
          b.Failed id failure c f' ids') := by
  obtain ⟨hknown, hrooted⟩ := h
  cases hadmission : f.admission b.registry id with
  | error failure =>
    exact ⟨a, f, ids, log, f.revises_self, .refl hnodup, .inr ⟨failure,
      Feature.runFrom_check_of_error hadmission, hknown, .inl ⟨hadmission, hrooted⟩⟩⟩
  | ok =>
    rcases hrooted with ⟨hroot, rfl⟩ | ⟨root, t, hroot, hread, hnamed⟩
    · exact ⟨a, f, [], log, f.revises_self, .refl hnodup, .inl
        ⟨Feature.runFrom_check_none hadmission hroot, hknown, hadmission,
          fun h => (h hroot).elim, .inl ⟨hroot, rfl⟩⟩⟩
    · obtain ⟨name, hname⟩ := hknown.className
      obtain ⟨Γ, e, hsetting⟩ := Feature.exists_setting hknown.declares
      obtain ⟨hΓ, hregistry, he⟩ := Feature.sound_setting b.coherent hname hsetting
      obtain ⟨hwell, -⟩ := Expectation.good_elaborate hΓ b.naming_made hnamed (hregistry ▸ he)
      obtain ⟨c, log', root', ids', hrun, hreads, hgrows, -, hkept⟩ := Expectation.exists_run hread
        hnodup (fun x hx => b.mark_new x (hknown.size_le.trans hx)) Γ e log
      have hcheck := Feature.runFrom_check_some hadmission hroot hsetting hname hrun
      rcases hresult : e.elaborate Γ b.made t with ⟨failure | ⟨⟩, t'⟩
      · -- the root keeps its slot
        obtain rfl : root' = root := hkept (by rw [hresult]; nofun)
        rw [hresult] at hcheck hreads
        have hrevises := f.revises_prepared name
        refine ⟨c, f.prepared name, ids', log', hrevises, hgrows, .inr ⟨failure, hcheck,
          hknown.revise hrevises hgrows.size_le,
          .inr ⟨hrevises.admission_eq.trans hadmission, ?_, ?_,
            .inr ⟨root', t', ?_, hreads, Γ, e, t, hrevises.setting?_eq.trans hsetting, hnamed,
              hresult⟩⟩⟩⟩
        · intro _ other hother
          obtain rfl := Option.some_inj.mp (hname.symm.trans hother)
          exact Feature.prepared_prepared ..
        · simp [hroot]
        · simp [hroot]
      · rw [hresult] at hcheck hreads hwell
        obtain ⟨ty, ht', hty⟩ := hwell rfl
        have hrevises := f.revises_withRoot name root'
        refine ⟨c, (f.prepared name).withRoot root', ids', log', hrevises, hgrows, .inl ⟨hcheck,
          hknown.revise hrevises hgrows.size_le, hrevises.admission_eq.trans hadmission, ?_,
          .inr ⟨root', t', by simp, hreads, Γ, e, ty, hrevises.setting?_eq.trans hsetting,
            ht', hty⟩⟩⟩
        · intro _ other hother
          obtain rfl := Option.some_inj.mp (hname.symm.trans hother)
          exact Feature.prepared_withRoot ..

/-! ### The two passes over a class -/

/-- A feature after the attributes of its class were checked, and before the methods. -/
def Halfway (b : Bodies ι) (id : ClassId) (a : Arena) (f : Feature) (ids : List ExprId) : Prop :=
  if f.isMethod then b.Raw id a f ids else b.Checked id a f ids

theorem framed_halfway : Owned.Framed (b.Halfway id) where
  lt_size {a f ids} h := by
    unfold Halfway at h
    split at h
    · exact framed_raw.lt_size h
    · exact framed_checked.lt_size h
  of_get? {a c f ids} h hsize hget := by
    unfold Halfway at h ⊢
    split at h
    · next hmethod => rw [if_pos hmethod]; exact framed_raw.of_get? h hsize hget
    · next hmethod => rw [if_neg hmethod]; exact framed_checked.of_get? h hsize hget

theorem keeps_checkAttribute :
    Keeps (b.Raw id) (Feature.onAttribute (Analysis.checkAttribute b.registry id)) (b.Halfway id)
      fun failure a f ids => f.isMethod = false ∧ b.Failed id failure a f ids := by
  intro a f ids log h hnodup
  cases hmethod : f.isMethod with
  | true =>
    refine ⟨a, f, ids, log, .refl hnodup, .inl ⟨?_, by rwa [Halfway, if_pos hmethod]⟩⟩
    rcases f with m | attr
    · rfl
    · cases hmethod
  | false =>
    rw [← Feature.check_of_not_isMethod hmethod]
    obtain ⟨c, f', ids', log', hrevises, hgrows, ⟨hrun, hf'⟩ | ⟨failure, hrun, hf'⟩⟩ :=
      h.exists_check hnodup log
    · refine ⟨c, f', ids', log', hgrows, .inl ⟨hrun, ?_⟩⟩
      rwa [Halfway, if_neg (by rw [hrevises.isMethod_eq, hmethod]; nofun)]
    · exact ⟨c, f', ids', log', hgrows,
        .inr ⟨failure, hrun, hrevises.isMethod_eq.trans hmethod, hf'⟩⟩

theorem keeps_checkMethod :
    Keeps (b.Halfway id) (Feature.onMethod (Analysis.checkMethod b.registry id)) (b.Checked id)
      fun failure a f ids => f.isMethod = true ∧ b.Failed id failure a f ids := by
  intro a f ids log h hnodup
  cases hmethod : f.isMethod with
  | false =>
    rw [Halfway, if_neg (by rw [hmethod]; nofun)] at h
    refine ⟨a, f, ids, log, .refl hnodup, .inl ⟨?_, h⟩⟩
    rcases f with m | attr
    · cases hmethod
    · rfl
  | true =>
    rw [Halfway, if_pos hmethod] at h
    rw [← Feature.check_of_isMethod hmethod]
    obtain ⟨c, f', ids', log', hrevises, hgrows, ⟨hrun, hf'⟩ | ⟨failure, hrun, hf'⟩⟩ :=
      h.exists_check hnodup log
    · exact ⟨c, f', ids', log', hgrows, .inl ⟨hrun, hf'⟩⟩
    · exact ⟨c, f', ids', log', hgrows,
        .inr ⟨failure, hrun, hrevises.isMethod_eq.trans hmethod, hf'⟩⟩

/-- The features of a class, each with an assertion. -/
def Features (P : Owned Feature) : Owned Class := fun a c ids =>
  EachFrom (fun _ => P) a 0 c.features ids

/-- A class that was rejected, in the first pass or in the second. -/
def Halted (b : Bodies ι) (id : ClassId) (failure : Failure) : Owned Class := fun a c ids =>
  Trail (fun _ => b.Raw id) (fun _ => b.Halfway id)
      (fun _ failure a f ids => f.isMethod = false ∧ b.Failed id failure a f ids)
      failure a 0 c.features ids ∨
    Trail (fun _ => b.Halfway id) (fun _ => b.Checked id)
      (fun _ failure a f ids => f.isMethod = true ∧ b.Failed id failure a f ids)
      failure a 0 c.features ids

/-- The check of a class: the attributes first, then the methods. -/
theorem keeps_checkClass :
    Keeps (Features (b.Raw id)) (Analysis.checkClass b.registry id) (Features (b.Checked id))
      (b.Halted id) := by
  have hattributes := (keeps_checkAttribute : Keeps (b.Raw id) _ _ _).eachFeature framed_raw
    framed_halfway
  have hmethods := (keeps_checkMethod : Keeps (b.Halfway id) _ _ _).eachFeature framed_halfway
    framed_checked
  refine .bind (Q := Features (b.Raw id)) ?_ (.bind (Q := Features (b.Halfway id)) ?_ ?_)
  · exact fun a c ids log h hnodup => ⟨a, c, ids, _, .refl hnodup, .inl ⟨rfl, h⟩⟩
  · exact hattributes.mono (fun _ _ _ h => h) (fun _ _ _ h => h) fun _ _ _ _ h => .inl h
  · exact hmethods.mono (fun _ _ _ h => h) (fun _ _ _ h => h) fun _ _ _ _ h => .inr h

theorem framed_features {P : Owned Feature} (hP : P.Framed) : (Features P).Framed where
  lt_size h := (EachFrom.framed (fun _ => hP) 0).lt_size h
  of_get? h := (EachFrom.framed (fun _ => hP) 0).of_get? h

/-- The check of all classes. -/
theorem keeps_checkClasses {classes : List Class} {k : Nat}
    (h : EachFrom (fun k => Features (b.Raw (Analysis.classId k))) a k classes ids)
    (hnodup : ids.Nodup) (log : Array Event) :
    ∃ c classes' ids' log', a.Grows ids c ids' ∧
      (Step.eachFrom (fun k => Analysis.checkClass b.registry (Analysis.classId k)) k classes
          ⟨a, log⟩ = (.ok (), ⟨c, log'⟩, classes') ∧
        EachFrom (fun k => Features (b.Checked (Analysis.classId k))) c k classes' ids' ∨
      ∃ failure, Step.eachFrom (fun k => Analysis.checkClass b.registry (Analysis.classId k)) k
          classes ⟨a, log⟩ = (.error failure, ⟨c, log'⟩, classes') ∧
        Trail (fun k => Features (b.Raw (Analysis.classId k)))
          (fun k => Features (b.Checked (Analysis.classId k)))
          (fun k => b.Halted (Analysis.classId k)) failure c k classes' ids') :=
  keeps_eachFrom (fun _ => keeps_checkClass) (fun _ => framed_features framed_raw)
    (fun _ => framed_features framed_checked) h hnodup log

end Bodies

end Lcpl

import Lcpl.Proofs.Analysis.Acceptance
import Lcpl.Proofs.Analysis.Deliveries
import Lcpl.Proofs.Analysis.Reordered
import Lcpl.Proofs.Analysis.Trees
import Lcpl.Proofs.Arena.Twins

/-!
# The analysis and the order of declarations

A class may be used in front of its declaration, and so may a feature. Nothing else that the
analysis decides depends on the order either: reordered programs are accepted together. Accepted
programs are given the same annotations. Only the nodes that are made on the way may differ in their
handles, since these are handed out in the order in which the features are checked.

The check of a feature is known from elaboration, and elaboration sees classes by their numbers. So
the proof takes the numbers of the one program to those of the other, and then the nodes.

## Main definitions

* `Program.Elaborates` — the body or initial value of a feature is accepted

## Main results

* `Program.exists_analyse_ok_iff` — what it takes for a program to be accepted
* `Arena.exists_renaming` — a renaming of the new nodes of two arenas
* `Delivered.twins`, `Program.Reordered.twins_class`, `Program.Reordered.twins` — the nodes of a
  feature, of a class and of a program
* `Program.analyse_of_reordered` — the order of the declarations does not matter
-/

namespace Lcpl

variable {ι : Type}

/-! ### Acceptance -/

namespace Program

variable {p q : Program}

/-- The root of a feature, read as a tree, is accepted where the feature stands. -/
def Elaborates (p : Program) (id : ClassId) (f : Feature) : Prop :=
  ∀ root Γ e t ids, f.root = some root → f.setting? p.table id = some (Γ, e) →
    p.exprs.Reads p.original? root t ids → ∃ t', e.elaborate Γ none t = (.ok (), t')

namespace Prepares

variable {w : Agenda (Option ExprId)} {i : Nat} {a : Arena} {f g g' : Feature} {failure : Failure}

/-- The registry of the agenda is the table of the program. -/
theorem registry_eq (hw : p.Prepares w) : w.registry = p.table :=
  (declarations_eq_ok_iff.mp hw.declarations).2

/-- The root of a feature that is finished was accepted. -/
theorem elaborates (hw : p.Prepares w) (hbare : g.bare = f.bare) (h : w.Finished i a g g') :
    p.Elaborates (Analysis.classId i) f := by
  intro root Γ e t ids hroot hsetting hread
  obtain ⟨hroots, hsettings, -⟩ := Feature.eq_of_bare hbare p.table (Analysis.classId i)
  rw [← hroots] at hroot
  rw [← hsettings] at hsetting
  cases h with
  | plain _ hnone =>
    rw [hroot] at hnone
    cases hnone
  | rooted _ _ hroot' hsetting' hread' helaborate =>
    -- a slot has one setting and reads as one tree, so it is this one that was elaborated
    obtain rfl := Option.some_inj.mp (hroot.symm.trans hroot')
    rw [hw.registry_eq] at hsetting'
    obtain ⟨rfl, rfl⟩ := Prod.mk.inj (Option.some_inj.mp (hsetting.symm.trans hsetting'))
    rw [hw.base, hw.mark] at hread'
    obtain ⟨rfl, -⟩ := hread.unique hread'
    rw [hw.made] at helaborate
    exact ⟨_, helaborate⟩

/-- The check does not stop at a feature that is admitted, and whose root is accepted. -/
theorem not_stopped (hw : p.Prepares w) (hbare : g.bare = f.bare)
    (hadmission : f.admission p.table (Analysis.classId i) = .ok ())
    (hf : p.Elaborates (Analysis.classId i) f) : ¬ w.Stopped i failure a g g' := by
  intro hstopped
  obtain ⟨hroots, hsettings, hadmissions, -⟩ :=
    Feature.eq_of_bare hbare p.table (Analysis.classId i)
  cases hstopped with
  | refused hrefused =>
    rw [hw.registry_eq, hadmissions, hadmission] at hrefused
    cases hrefused
  | rooted _ _ hroot hsetting hread helaborate =>
    rw [hw.registry_eq, hsettings] at hsetting
    rw [hw.base, hw.mark] at hread
    rw [hw.made] at helaborate
    obtain ⟨t', hok⟩ := hf _ _ _ _ _ (hroots.symm.trans hroot) hsetting hread
    rw [helaborate] at hok
    cases hok

end Prepares

/-- A program whose expressions form trees is accepted if it meets the demands that do not concern
bodies, and the root of every feature is accepted. -/
theorem exists_analyse_ok_iff (hforest : p.checkForest = .ok ()) :
    (∃ registry, p.analyse.result = .ok registry) ↔
      p.Admitted ∧ ∀ i j f, featureAt? p.classes i j = some f →
        p.Elaborates (Analysis.classId i) f := by
  constructor
  · rintro ⟨registry, h⟩
    refine ⟨admitted_of_analyse h, fun i j f hf => ?_⟩
    cases course hforest with
    | early _ _ hresult =>
      rw [hresult] at h
      cases h
    | halted _ _ _ hresult =>
      rw [hresult] at h
      cases h
    | finished w hw _ hprogress =>
      obtain ⟨g, hg, hbare⟩ := exists_featureAt?_of_bare hw.classes.symm hf
      obtain ⟨g', -, hfinished⟩ := hprogress.finished i j g hg trivial
      exact hw.elaborates hbare hfinished
  · rintro ⟨hadmitted, helaborates⟩
    have hdeclarations : p.declarations = .ok p.table :=
      declarations_eq_ok_iff.mpr ⟨hadmitted.declared, rfl⟩
    cases course hforest with
    | early failure hcause =>
      rw [hdeclarations] at hcause
      rcases hcause with hcause | ⟨registry, hregistry, hcycle⟩
      · cases hcause
      · obtain rfl := Except.ok.inj hregistry
        rw [hadmitted.acyclic] at hcycle
        cases hcycle
    | halted failure w hw _ hhalted =>
      -- the feature at which the check has stopped is accepted
      obtain ⟨i, j, g, g', hg, -, hstopped, -⟩ := hhalted
      obtain ⟨f, hf, hbare⟩ := exists_featureAt?_of_bare hw.classes hg
      exact absurd hstopped
        (hw.not_stopped hbare.symm (hadmitted.features i j f hf) (helaborates i j f hf))
    | finished w hw hresult _ =>
      rw [hw.registry_eq, hadmitted.entry] at hresult
      exact ⟨p.table, hresult⟩

namespace Reordered

variable (h : p.Reordered q) (hp : p.WellDeclared)
include h

theorem original?_eq : q.original? = p.original? := by
  funext x
  rw [original?, original?, h.exprs]

include hp in
/-- The root of a feature is accepted in one program as it is in the other. -/
theorem elaborates {id : ClassId} {f : Feature} (hf : p.Elaborates (q.renumber p id) f) :
    q.Elaborates id f := by
  intro root Γ e t ids hroot hsetting hread
  have hq := h.wellDeclared hp
  rw [h.exprs, h.original?_eq] at hread
  -- the setting in `p` comes from the one in `q`, and leads to it
  obtain ⟨Γ₀, hsetting₀, -⟩ := Feature.exists_setting?_of_renames (h.symm.renames_table hq) hsetting
  obtain ⟨t', helaborate⟩ := hf root Γ₀ _ t ids hroot hsetting₀ hread
  obtain ⟨Γ', hsetting', hΓ⟩ := Feature.exists_setting?_of_renames (h.renames_table hp) hsetting₀
  rw [h.symm.renumber_renumber hq, hsetting] at hsetting'
  obtain ⟨rfl, he⟩ := Prod.mk.inj (Option.some_inj.mp hsetting')
  rw [he]
  exact ⟨t', Expectation.elaborate_of_renames hΓ helaborate⟩

/-- A program is accepted in any order of its declarations. -/
theorem exists_analyse_ok (hforest : p.checkForest = .ok ())
    (haccepted : ∃ registry, p.analyse.result = .ok registry) :
    ∃ registry, q.analyse.result = .ok registry := by
  obtain ⟨hadmitted, helaborates⟩ := (exists_analyse_ok_iff hforest).mp haccepted
  refine (exists_analyse_ok_iff (h.checkForest hforest)).mpr
    ⟨h.admitted hadmitted, fun i j f hf => ?_⟩
  obtain ⟨d, hd, hmem⟩ := exists_of_featureAt? hf
  obtain ⟨i', c, hc, hdc, hnumber⟩ := h.symm.exists_renumber_classId hadmitted.declared hd
  obtain ⟨j', hf'⟩ := exists_featureAt?_of_mem hc (hdc.features.mem_iff.mp hmem)
  refine h.elaborates hadmitted.declared ?_
  rw [hnumber]
  exact helaborates i' j' f hf'

end Reordered

end Program

/-! ### Nodes -/

namespace Arena

variable {base a b : Arena} {owned ids ids' : List ExprId}

/-- Two arenas that have grown from one, where all that was added or changed has its twin. A
renaming that keeps the old handles takes the one to the other. -/
theorem exists_renaming {mark : ExprId → ι} {rel : (ExprId → ExprId) → Prop} (hclosed : base.Closed)
    (hmark : ∀ x y : ExprId, x.index < base.size → mark x = mark y → x = y)
    (ha : base.Accounts owned a ids) (hb : base.Accounts owned b ids')
    (hlt : ∀ x ∈ ids, x.index < a.size) (hlt' : ∀ x ∈ ids', x.index < b.size)
    (htwins : Twins mark a b ids ids' rel) :
    ∃ ρ : ExprId ≃ ExprId, (∀ id : ExprId, id.index < base.size → ρ id = id) ∧ rel ρ ∧
      ∀ id, b.get? (ρ id) = (a.get? id).map (Node.rename ρ) := by
  obtain ⟨hsize, hperm⟩ := ha.perm_of_length_eq hb hlt hlt' htwins.length_eq
  obtain ⟨ρ, hrel, hfixed, htwin⟩ := htwins.exists_equiv hperm ha.nodup
  have hold : ∀ id : ExprId, id.index < base.size → ρ id = id := by
    intro id hid
    by_cases hmem : id ∈ ids
    · exact (hmark id (ρ id) hid (htwin id hmem).1.symm).symm
    · exact hfixed id hmem
  refine ⟨ρ, hold, hrel, fun id => ?_⟩
  by_cases hmem : id ∈ ids
  · exact (htwin id hmem).2
  rw [hfixed id hmem]
  by_cases hid : id.index < base.size
  · -- a node that nobody owns stays, and its parts are old nodes
    have howned : id ∉ owned := fun howned => hmem ((ha.mem_iff hlt).mpr (.inl howned))
    rw [ha.get?_eq id hid howned, hb.get?_eq id hid howned]
    cases hget : base.get? id with
    | none => rfl
    | some node =>
      have hsame : node.expr.map ρ = node.expr := by
        refine (Form.map_congr fun child hchild => ?_).trans node.expr.map_id
        exact hold child (contains_iff.mp (hclosed id node hget child hchild))
      rw [Option.map_some, Node.rename, hsame]
  · -- every new node is owned, so there is none here
    have hge : a.size ≤ id.index := by
      by_contra hnew
      exact hmem ((ha.mem_iff hlt).mpr (.inr ⟨Nat.le_of_not_lt hid, Nat.lt_of_not_le hnew⟩))
    have hnone : a.get? id = none := Array.getElem?_eq_none hge
    have hnone' : b.get? id = none := Array.getElem?_eq_none (hsize.symm.le.trans hge)
    rw [hnone, hnone', Option.map_none]

end Arena

/-! ### Features, classes and programs -/

theorem Feature.rename_of_root_eq_none {f : Feature} (h : f.root = none) (ρ : ExprId → ExprId) :
    f.rename ρ = f := by
  rcases f with m | a
  · rw [rename, show m.body = none from h, Option.map_none, ← show m.body = none from h]
  · rw [rename, show a.init = none from h, Option.map_none, ← show a.init = none from h]

theorem Class.Reordered.annotated {c d : Class} (h : c.Reordered d) (registry : Registry) :
    (c.annotated registry).Reordered (d.annotated registry) := by
  refine ⟨h.line, h.name, h.parent, ?_, ?_⟩
  · rw [Class.annotated, Class.annotated, h.name]
  · rw [Class.annotated, Class.annotated, h.name]
    exact h.features.map _

/-- What the checks of one feature make of it, where classes have other numbers. -/
theorem Delivered.twins {registry registry' : Registry} {π : ClassId → ClassId} {made : ι}
    {mark : ExprId → ι} {base a b : Arena} {id : ClassId} {f₀ f g : Feature}
    {ids ids' : List ExprId} (hR : registry.Renames π registry')
    (h : Delivered registry made mark base id a (f₀, f) ids)
    (h' : Delivered registry' made mark base (π id) b (f₀, g) ids') :
    Twins mark a b ids ids' fun ρ => g = f.rename ρ := by
  cases h with
  | plain hroot =>
    cases h' with
    | plain => exact .nil fun ρ => (Feature.rename_of_root_eq_none hroot ρ).symm
    | rooted _ hroot' =>
      rw [hroot] at hroot'
      cases hroot'
  | rooted hname hroot hsetting hread helaborate hread' =>
    cases h' with
    | plain hnone =>
      rw [hroot] at hnone
      cases hnone
    | rooted hname' hroot' hsetting' hread'' helaborate' hread''' =>
      obtain rfl := Option.some_inj.mp (hroot.symm.trans hroot')
      obtain ⟨rfl, -⟩ := hread.unique hread''
      rw [hR.name?, hname] at hname'
      obtain rfl := Option.some_inj.mp hname'
      -- the roots are elaborated in settings that differ in the numbers of classes only
      obtain ⟨Γ', hsetting'', hΓ⟩ := Feature.exists_setting?_of_renames hR hsetting
      rw [hsetting'] at hsetting''
      obtain ⟨rfl, rfl⟩ := Prod.mk.inj (Option.some_inj.mp hsetting'')
      rw [Expectation.elaborate_of_renames hΓ helaborate] at helaborate'
      obtain ⟨-, rfl⟩ := Prod.mk.inj helaborate'
      refine (hread'.twins hread''').imp fun ρ hρ => ?_
      rw [hρ]
      rcases f₀ with m | attr <;> rfl

namespace Program.Reordered

variable {p q : Program} (h : p.Reordered q) (hp : p.WellDeclared)
include h hp

/-- What the analyses make of a class. -/
theorem twins_class {x y : Class × Class} {ids ids' : List ExprId} (hxy : x.1.Reordered y.1)
    (hx : p.DeliveredClass x ids) (hy : q.DeliveredClass y ids') :
    Twins p.original? p.analyse.program.exprs q.analyse.program.exprs ids ids' fun ρ =>
      (x.2.rename ρ).Reordered y.2 := by
  obtain ⟨id, features, hfind, hfst, hx, hall⟩ := hx
  obtain ⟨id', features', hfind', hfst', hy, hall'⟩ := hy
  rw [hxy.name, h.find?_table hfind] at hfind'
  obtain rfl := Option.some_inj.mp hfind'
  rw [h.original?_eq, h.exprs] at hall'
  -- the features of the first class are brought into the order of the second
  have hfeatures : (features.map Prod.fst).Perm (features'.map Prod.fst) := by
    rw [hfst, hfst']
    exact hxy.features
  have hsame : List.Forall₂ Eq (features'.map Prod.fst) (features'.map Prod.fst) :=
    List.forall₂_same.mpr fun _ _ => rfl
  obtain ⟨mid, hmid, hmatch⟩ := exists_perm_forall₂_of_map hfeatures hsame
  have htwins : Twins p.original? p.analyse.program.exprs q.analyse.program.exprs ids ids' fun ρ =>
      List.Forall₂ (fun f g => g.2 = f.2.rename ρ) mid features' := by
    refine hall.twins_of_perm hmid hmatch hall' ?_
    rintro ⟨f₀, f⟩ ⟨g₀, g⟩ own own' rfl hf hg
    exact hf.twins (h.renames_table hp) hg
  refine htwins.imp fun ρ hρ => ?_
  have hrenamed : (mid.map Prod.snd).map (Feature.rename ρ) = features'.map Prod.snd := by
    rw [List.map_map, ← List.forall₂_eq_eq_eq, List.forall₂_map_left_iff,
      List.forall₂_map_right_iff]
    exact hρ.imp fun _ _ heq => heq.symm
  rw [hx, hy]
  refine ⟨hxy.line, hxy.name, hxy.parent, hxy.recordedParent, ?_⟩
  show ((features.map Prod.snd).map (Feature.rename ρ)).Perm (features'.map Prod.snd)
  rw [← hrenamed]
  exact (hmid.map Prod.snd).map (Feature.rename ρ)

/-- The declarations are given the same annotations. -/
theorem annotated :
    Class.ReorderedAll (p.classes.map (Class.annotated p.table))
      (q.classes.map (Class.annotated q.table)) := by
  have hsame : Class.annotated q.table = Class.annotated p.table := by
    funext c
    exact Class.annotated_of_renames (h.renames_table hp) c
  rw [hsame]
  exact h.classes.map fun _ _ hcd => hcd.annotated p.table

/-- What the analyses make of the classes. -/
theorem twins {pairs pairs' : List (Class × Class)} {ids ids' : List ExprId}
    (hpairs : Jointly p.DeliveredClass pairs ids) (hpairs' : Jointly q.DeliveredClass pairs' ids')
    (hfst : pairs.map Prod.fst = p.classes.map (Class.annotated p.table))
    (hfst' : pairs'.map Prod.fst = q.classes.map (Class.annotated q.table)) :
    Twins p.original? p.analyse.program.exprs q.analyse.program.exprs ids ids' fun ρ =>
      Class.ReorderedAll ((pairs.map Prod.snd).map (Class.rename ρ)) (pairs'.map Prod.snd) := by
  obtain ⟨mid₀, hmid₀, hmatch₀⟩ := h.annotated hp
  rw [← hfst] at hmid₀
  rw [← hfst'] at hmatch₀
  obtain ⟨mid, hmid, hmatch⟩ := exists_perm_forall₂_of_map hmid₀ hmatch₀
  have htwins : Twins p.original? p.analyse.program.exprs q.analyse.program.exprs ids ids' fun ρ =>
      List.Forall₂ (fun x y => (x.2.rename ρ).Reordered y.2) mid pairs' :=
    hpairs.twins_of_perm hmid hmatch hpairs' fun _ _ _ _ => h.twins_class hp
  refine htwins.imp fun ρ hρ => ⟨(mid.map Prod.snd).map (Class.rename ρ), ?_, ?_⟩
  · exact (hmid.map Prod.snd).map (Class.rename ρ)
  · rw [List.map_map, List.forall₂_map_left_iff, List.forall₂_map_right_iff]
    exact hρ

end Program.Reordered

namespace Program

variable {p q : Program}

/-- Reordered programs that are accepted are the same in the end, up to their order and a renaming
of the nodes that were made. -/
theorem Reordered.exists_reorderedUpTo (h : p.Reordered q) (hforest : p.checkForest = .ok ())
    {registry registry' : Registry} (hp : p.analyse.result = .ok registry)
    (hq : q.analyse.result = .ok registry') :
    ∃ ρ : ExprId ≃ ExprId, (∀ id : ExprId, id.index < p.exprs.size → ρ id = id) ∧
      p.analyse.program.ReorderedUpTo ρ q.analyse.program := by
  obtain ⟨hclosed, -⟩ := (checkForest_eq_ok_iff p.original?).mp hforest
  obtain ⟨ids, hids, hnodup⟩ := exists_reads_of_checkForest p.original? hforest
  obtain ⟨ids', hids', hperm⟩ := hids.of_perm h.classes.flatMap_roots
  rw [← h.original?_eq, ← h.exprs] at hids'
  obtain ⟨pairs, owned, haccounts, hlt, hpairs, hfst, hsnd⟩ := exists_delivered hids hnodup hp
  obtain ⟨pairs', owned', haccounts', hlt', hpairs', hfst', hsnd'⟩ :=
    exists_delivered hids' (hperm.nodup_iff.mpr hnodup) hq
  have htwins := h.twins (admitted_of_analyse hp).declared hpairs hpairs' hfst hfst'
  rw [hsnd, hsnd'] at htwins
  -- both programs start with the same nodes, of which they own the same
  rw [h.exprs] at haccounts'
  obtain ⟨ρ, hfixed, hclasses, hget⟩ := Arena.exists_renaming hclosed (fun x y => eq_of_original?)
    haccounts (haccounts'.of_perm hperm.symm (.refl _)) hlt hlt' htwins
  refine ⟨ρ, hfixed, ?_, ?_, hget, hclasses⟩
  · rw [line_analyse, line_analyse, h.line]
  · rw [builtins_analyse, builtins_analyse]

/-- The order of the declarations does not matter. Reordered programs are accepted together. In the
end they are the same, up to their order and a renaming of the nodes that were made. Every other
node is given the same annotations. -/
theorem analyse_of_reordered (hforest : p.checkForest = .ok ()) (h : p.Reordered q) :
    ((∃ registry, p.analyse.result = .ok registry) ↔ ∃ registry, q.analyse.result = .ok registry) ∧
    ((∃ registry, p.analyse.result = .ok registry) →
      ∃ ρ : ExprId ≃ ExprId, p.analyse.program.ReorderedUpTo ρ q.analyse.program ∧
        ∀ id : ExprId, id.index < p.exprs.size → ρ id = id ∧
          (q.analyse.program.exprs.get? id).map Node.face =
            (p.analyse.program.exprs.get? id).map Node.face) := by
  have hforest' := h.checkForest hforest
  refine ⟨⟨h.exists_analyse_ok hforest, h.symm.exists_analyse_ok hforest'⟩, ?_⟩
  rintro ⟨registry, hp⟩
  obtain ⟨registry', hq⟩ := h.exists_analyse_ok hforest ⟨registry, hp⟩
  obtain ⟨ρ, hfixed, hsame⟩ := h.exists_reorderedUpTo hforest hp hq
  refine ⟨ρ, hsame, fun id hid => ⟨hfixed id hid, ?_⟩⟩
  have hget := hsame.get? id
  rw [hfixed id hid] at hget
  have hface : Node.face ∘ Node.rename ρ = Node.face := funext (Node.face_rename ρ)
  rw [hget, Option.map_map, hface]

/-- The program, with its classes and the features of each class from the last to the first. -/
def backwards (p : Program) : Program :=
  { p with classes := (p.classes.map fun c => { c with features := c.features.reverse }).reverse }

theorem reordered_backwards (p : Program) : p.Reordered p.backwards := by
  refine ⟨rfl, rfl, rfl, p.classes.reverse, (List.reverse_perm _).symm, ?_⟩
  rw [backwards, ← List.map_reverse, List.forall₂_map_right_iff]
  exact List.forall₂_same.mpr fun c _ => ⟨rfl, rfl, rfl, rfl, (List.reverse_perm _).symm⟩

/-- A class and its parent, each with a text that is set to a number. -/
def keeper : Program where
  line := 1
  classes := [
    { line := 1, name := "Keeper", parent := some "Main", recordedParent := none
      features := [.attribute (.declared 2 "label" "String" (some ⟨0⟩))] },
    { line := 3, name := "Main", parent := none, recordedParent := none
      features := [
        .method (.declared 4 "main" [] "void" (some ⟨2⟩)),
        .attribute (.declared 6 "last" "String" (some ⟨3⟩))] }]
  exprs := ⟨#[
    ⟨2, .intConstant 7, none⟩,
    ⟨5, .newObject "Keeper", none⟩,
    ⟨4, .block [⟨1⟩], none⟩,
    ⟨6, .intConstant 1, none⟩]⟩
  builtins := []

/-- The two casts are made in another order. So the arenas differ, and are the same up to a
renaming. -/
theorem analyse_of_reordered_keeper :
    keeper.checkForest = .ok () ∧ keeper.Reordered keeper.backwards ∧
      keeper.analyse.program.exprs ≠ keeper.backwards.analyse.program.exprs ∧
      (∃ registry, keeper.backwards.analyse.result = .ok registry) ∧
      ∃ ρ : ExprId ≃ ExprId,
        keeper.analyse.program.ReorderedUpTo ρ keeper.backwards.analyse.program ∧ ρ ⟨0⟩ = ⟨0⟩ := by
  have hforest : keeper.checkForest = .ok () := by decide +kernel
  have hok : ∃ registry, keeper.analyse.result = .ok registry :=
    exists_of_toBool (by decide +kernel)
  have hdiffer : keeper.analyse.program.exprs ≠ keeper.backwards.analyse.program.exprs := by
    decide +kernel
  obtain ⟨htogether, hsame⟩ := analyse_of_reordered hforest keeper.reordered_backwards
  obtain ⟨ρ, hρ, hkept⟩ := hsame hok
  exact ⟨hforest, keeper.reordered_backwards, hdiffer, htogether.mp hok, ρ, hρ,
    (hkept ⟨0⟩ (by decide)).1⟩

end Program

end Lcpl

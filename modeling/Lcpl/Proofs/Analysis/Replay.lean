import Lcpl.Proofs.Analysis.Course
import Lcpl.Proofs.Arena.Settled

/-!
# Checking bodies twice

A feature that was accepted is accepted again, and nothing happens to it. A feature that was
rejected is rejected for the same reason. Nodes may be made on the way to a failure, but those that
were there stay as they are. What holds of a feature is carried to classes here, and to lists of
classes.

This needs names to keep their meaning, as for a single term.

## Main definitions

* `Registry.SelfFree` — no parameter and no attribute is named like the receiver
* `Bodies.Steady` — names keep their meaning

## Main results

* `Bodies.Checked.replays`, `Bodies.Failed.replays` — a feature
* `Bodies.replays_of_checked`, `Bodies.Halted.replays` — a class
* `Bodies.exists_checkClasses_again` — all classes
-/

namespace Lcpl

variable {ι : Type}

/-! ### Arenas with appended nodes -/

namespace Arena

variable {a c : Arena} {ids ids' : List ExprId}

/-- If the owned nodes stay as well, nodes are only appended. -/
theorem Grows.appends (h : a.Grows ids c ids') (hsame : ∀ x ∈ ids, c.get? x = a.get? x) :
    a.Appends c where
  size_le := h.size_le
  get?_eq x hlt _ := by
    by_cases hx : x ∈ ids
    · exact hsame x hx
    · exact h.get?_eq x hlt hx
  nodup := .nil
  old_or_new := by simp

theorem Appends.exists_nodes (h : a.Appends c) : ∃ added, c.nodes = a.nodes ++ added := by
  refine ⟨c.nodes.extract a.size, ?_⟩
  apply Array.ext_getElem?
  intro i
  by_cases hi : i < a.size
  · rw [Array.getElem?_append_left hi]
    exact h.get?_eq ⟨i⟩ hi List.not_mem_nil
  · have hle : a.nodes.size ≤ i := Nat.le_of_not_lt hi
    rw [Array.getElem?_append_right hle, Array.getElem?_extract]
    by_cases hc : i < c.nodes.size
    · rw [if_pos (by simp only [size]; omega), size, Nat.add_sub_cancel' hle]
    · rw [if_neg (by simp only [size]; omega), Array.getElem?_eq_none (Nat.le_of_not_lt hc)]

theorem Appends.eq_of_size (h : a.Appends c) (hsize : c.size = a.size) : c = a := by
  obtain ⟨added, hadded⟩ := h.exists_nodes
  have hempty : added = #[] := by
    have hlength := congrArg Array.size hadded
    rw [Array.size_append] at hlength
    exact Array.eq_empty_of_size_eq_zero (by simp only [size] at hsize; omega)
  rw [hempty, Array.append_empty] at hadded
  obtain ⟨nodes⟩ := c
  exact congrArg Arena.mk hadded

end Arena

/-! ### Names that keep their meaning -/

/-- No parameter and no attribute is named like the receiver. -/
structure Registry.SelfFree (registry : Registry) : Prop where
  params : ∀ id name method, registry.ownMethod? id name = some method →
    ∀ param ∈ method.params, param.name ≠ Vocabulary.receiver
  attributes : ∀ id, registry.ownAttribute? id Vocabulary.receiver = none

theorem Feature.selfFree_setting {registry : Registry} {id : ClassId} {f : Feature} {Γ : Context}
    {e : Expectation} (h : registry.SelfFree) (hsetting : f.setting? registry id = some (Γ, e)) :
    Γ.SelfFree .empty := by
  have hattribute : Γ.attribute? Vocabulary.receiver = none := by
    rw [Context.attribute?, Registry.lookupAttribute?, (context_of_setting? hsetting).1]
    rw [List.findSome?_eq_none_iff.mpr fun id _ => h.attributes id, Option.bind_none]
  have hparam : Γ.param? Vocabulary.receiver = none := by
    rw [Context.param?, Option.map_eq_none_iff, List.find?_eq_none]
    intro param hparam
    rw [List.mem_reverse] at hparam
    rcases f with m | a
    · obtain ⟨method, hmethod, hset⟩ := Option.map_eq_some_iff.mp hsetting
      obtain ⟨rfl, -⟩ := Prod.mk.inj hset
      simpa using h.params id m.name method hmethod param hparam
    · obtain ⟨known, -, hset⟩ := Option.map_eq_some_iff.mp hsetting
      obtain ⟨rfl, -⟩ := Prod.mk.inj hset
      cases hparam
  rw [Context.SelfFree, Context.lookup?, hparam]
  exact hattribute

/-- Names keep their meaning when bodies are checked a second time, and marks tell which nodes were
made. -/
structure Bodies.Steady (b : Bodies ι) : Prop where
  plain : ∀ mark, (b.naming mark).Plain
  selfFree : b.registry.SelfFree
  underObject : b.registry.UnderObject
  le_of_made : ∀ x, b.mark x = b.made → b.size ≤ x.index

/-! ### Features -/

theorem Feature.withRoot_self {f : Feature} {root : ExprId} (h : f.root = some root) :
    f.withRoot root = f := by
  rcases f with m | a
  · exact congrArg (fun body => Feature.method { m with body }) h.symm
  · exact congrArg (fun init => Feature.attribute { a with init }) h.symm

namespace Bodies

variable {b : Bodies ι} {id : ClassId} {a : Arena} {f : Feature} {ids : List ExprId}
variable {failure : Failure}

/-- A root that elaborates to itself, with a success or a failure, is checked without any change. -/
theorem replays_check (hb : b.Steady) (hknown : b.Known id a f) (hnodup : ids.Nodup)
    (hold : ∀ x ∈ ids, a.WrapsOld b.size x) (hadmission : f.admission b.registry id = .ok ())
    (hprepared : b.Prepared id f) {root : ExprId} {t : Term ι} (hroot : f.root = some root)
    (hread : a.Reads b.mark root t ids) {Γ : Context} {e : Expectation}
    (hsetting : f.setting? b.registry id = some (Γ, e)) {result : Except Failure Unit}
    (helaborate : e.elaborate Γ b.made t = (result, t)) :
    Replays (f.check b.registry id) result a f ids := by
  intro d log hsize hget
  have hread' := hread.of_get? hget
  have hold' : ∀ x ∈ ids, d.WrapsOld b.size x := fun x hx => (hold x hx).of_get? (hget x hx)
  have hmade : ∀ x, b.mark x = b.made ↔ b.size ≤ x.index :=
    fun x => ⟨hb.le_of_made x, b.mark_new x⟩
  have hle : b.size ≤ d.size := hknown.size_le.trans hsize
  have hunder : Γ.registry.UnderObject := (Feature.context_of_setting? hsetting).1 ▸ hb.underObject
  obtain ⟨name, hname⟩ := hknown.className
  have hself : f.prepared name = f := hprepared (by rw [hroot]; nofun) name hname
  obtain ⟨c, log', root', ids', hrun, hreads, hgrows, hcount, hkept⟩ :=
    Expectation.exists_run hread' hnodup (fun x hx => b.mark_new x (hle.trans hx)) Γ e log
  have hensures := Expectation.annotates_check hread' hnodup hunder e
  have hcheck := Feature.runFrom_check_some hadmission hroot hsetting hname hrun
  rw [helaborate] at hrun hreads hcount hkept hcheck
  rw [hself] at hcheck
  -- an annotated tree that reads as before has the nodes that it had
  cases result with
  | error failure =>
    obtain rfl := hkept (by nofun)
    obtain ⟨-, hsame⟩ := (hensures.error rfl hrun).settled hmade hle root' t root' ids ids' hold'
      (.refl ..) hread' hreads
    exact ⟨c, log', hcheck, hgrows.appends hsame, nofun⟩
  | ok =>
    obtain ⟨hannotates, hleads⟩ := hensures.ok rfl hrun
    obtain ⟨rfl, hsame⟩ :=
      hannotates.settled hmade hle root t root' ids ids' hold' hleads hread' hreads
    have happends := hgrows.appends hsame
    refine ⟨c, log', ?_, happends, fun _ => happends.eq_of_size ?_⟩
    · rw [hcheck]
      exact congrArg (fun f => (Except.ok (), _, f)) (Feature.withRoot_self hroot)
    · obtain ⟨-, rfl⟩ := (hread'.of_get? hsame).unique hreads
      have := hcount rfl
      omega

/-- A feature that was accepted is accepted again. -/
theorem Checked.replays (hb : b.Steady) (h : b.Checked id a f ids) (hnodup : ids.Nodup)
    (hold : ∀ x ∈ ids, a.WrapsOld b.size x) : Replays (f.check b.registry id) (.ok ()) a f ids := by
  rcases h.rooted with ⟨hroot, -⟩ | ⟨root, t, hroot, hread, Γ, e, ty, hsetting, ht, hty⟩
  · exact fun d log _ _ =>
      ⟨d, log, Feature.runFrom_check_none h.admission hroot, .refl d, fun _ => rfl⟩
  · have hself := Feature.selfFree_setting hb.selfFree hsetting
    have hindexed : Γ.registry.Indexed :=
      (Feature.context_of_setting? hsetting).1 ▸ b.coherent.indexed
    exact replays_check hb h.known hnodup hold h.admission h.prepared hroot hread hsetting
      (Expectation.elaborate_eq hindexed hb.plain ht hself hty)

/-- A feature that was rejected is rejected again, for the same reason. -/
theorem Failed.replays (hb : b.Steady) (h : b.Failed id failure a f ids) (hnodup : ids.Nodup)
    (hold : ∀ x ∈ ids, a.WrapsOld b.size x) :
    Replays (f.check b.registry id) (.error failure) a f ids := by
  rcases h.cause with ⟨hadmission, -⟩ | ⟨hadmission, hprepared, hnone, hrooted⟩
  · exact fun d log _ _ => ⟨d, log, Feature.runFrom_check_of_error hadmission, .refl d, nofun⟩
  · rcases hrooted with
      ⟨hroot, -⟩ | ⟨root, t, hroot, hread, Γ, e, before, hsetting, hnamed, hbefore⟩
    · exact absurd hroot hnone
    · obtain ⟨name, hname⟩ := h.known.className
      obtain ⟨hΓ, hregistry, he⟩ := Feature.sound_setting b.coherent hname hsetting
      have hself := Feature.selfFree_setting hb.selfFree hsetting
      have hagain := Expectation.elaborate_elaborate hΓ hb.plain b.naming_made hnamed hself
        (hregistry ▸ he)
      rw [hbefore] at hagain
      exact replays_check hb h.known hnodup hold hadmission hprepared hroot hread hsetting hagain

/-! ### Classes -/

/-- A pass over the features of a class that are settled. -/
theorem replays_eachFeature {step : Step (Checking × Feature) Unit} {c : Class}
    (h : EachFrom (fun _ => Replays step (.ok ())) a 0 c.features ids) :
    Replays (Class.eachFeature step) (.ok ()) a c ids := by
  intro d log hsize hget
  obtain ⟨log', hrun⟩ := h.replays log hsize hget
  refine ⟨d, log', ?_, .refl d, fun _ => rfl⟩
  rw [Class.runFrom_eachFeature, hrun]

/-- A pass that fails at a feature, behind features that are settled. -/
theorem replays_eachFeature_error {step : Step (Checking × Feature) Unit} {c : Class}
    {P : Nat → Owned Feature}
    (h : Trail P (fun _ => Replays step (.ok ())) (fun _ f => Replays step (.error f)) failure a 0
      c.features ids) : Replays (Class.eachFeature step) (.error failure) a c ids := by
  intro d log hsize hget
  obtain ⟨d', log', hrun, happends⟩ := h.replays log hsize hget
  refine ⟨d', log', ?_, happends, nofun⟩
  rw [Class.runFrom_eachFeature, hrun]

theorem replays_onAttribute_of_isMethod (h : f.isMethod = true) :
    Replays (Feature.onAttribute (Analysis.checkAttribute b.registry id)) (.ok ()) a f ids := by
  intro d log _ _
  rcases f with m | attr
  · exact ⟨d, log, rfl, .refl d, fun _ => rfl⟩
  · cases h

theorem replays_onMethod_of_not_isMethod (h : f.isMethod = false) :
    Replays (Feature.onMethod (Analysis.checkMethod b.registry id)) (.ok ()) a f ids := by
  intro d log _ _
  rcases f with m | attr
  · cases h
  · exact ⟨d, log, rfl, .refl d, fun _ => rfl⟩

theorem Checked.replays_onAttribute (hb : b.Steady) (h : b.Checked id a f ids) (hnodup : ids.Nodup)
    (hold : ∀ x ∈ ids, a.WrapsOld b.size x) :
    Replays (Feature.onAttribute (Analysis.checkAttribute b.registry id)) (.ok ()) a f ids := by
  cases hmethod : f.isMethod with
  | true => exact replays_onAttribute_of_isMethod hmethod
  | false =>
    rw [← Feature.check_of_not_isMethod hmethod]
    exact h.replays hb hnodup hold

theorem Checked.replays_onMethod (hb : b.Steady) (h : b.Checked id a f ids) (hnodup : ids.Nodup)
    (hold : ∀ x ∈ ids, a.WrapsOld b.size x) :
    Replays (Feature.onMethod (Analysis.checkMethod b.registry id)) (.ok ()) a f ids := by
  cases hmethod : f.isMethod with
  | true =>
    rw [← Feature.check_of_isMethod hmethod]
    exact h.replays hb hnodup hold
  | false => exact replays_onMethod_of_not_isMethod hmethod

theorem Halfway.replays_onAttribute (hb : b.Steady) (h : b.Halfway id a f ids) (hnodup : ids.Nodup)
    (hold : ∀ x ∈ ids, a.WrapsOld b.size x) :
    Replays (Feature.onAttribute (Analysis.checkAttribute b.registry id)) (.ok ()) a f ids := by
  unfold Halfway at h
  split at h
  · next hmethod => exact replays_onAttribute_of_isMethod hmethod
  · exact h.replays_onAttribute hb hnodup hold

/-- The check of a class, from its two passes. -/
theorem replays_checkClass {result : Except Failure Unit} {c : Class}
    (h : Replays (do
      Class.eachFeature (Feature.onAttribute (Analysis.checkAttribute b.registry id))
      Class.eachFeature (Feature.onMethod (Analysis.checkMethod b.registry id))) result a c ids) :
    Replays (Analysis.checkClass b.registry id) result a c ids := by
  intro d log hsize hget
  obtain ⟨d', log', hrun, hd'⟩ := h d (log.push (.bodyStarted c.name)) hsize hget
  exact ⟨d', log', (Step.runFrom_bind_of_ok (Step.runFrom_modify ..)).trans hrun, hd'⟩

/-- A class that was accepted is accepted again. -/
theorem replays_of_checked (hb : b.Steady) {c : Class} (h : Features (b.Checked id) a c ids)
    (hnodup : ids.Nodup) (hold : ∀ x ∈ ids, a.WrapsOld b.size x) :
    Replays (Analysis.checkClass b.registry id) (.ok ()) a c ids := by
  refine replays_checkClass (.bind (replays_eachFeature ?_) (replays_eachFeature ?_))
  · exact h.mono fun _ f own hsub hf => hf.replays_onAttribute hb (hnodup.sublist hsub)
      fun x hx => hold x (hsub.subset hx)
  · exact h.mono fun _ f own hsub hf => hf.replays_onMethod hb (hnodup.sublist hsub)
      fun x hx => hold x (hsub.subset hx)

/-- A class that was rejected is rejected again, in the same pass. -/
theorem Halted.replays (hb : b.Steady) {c : Class} (h : b.Halted id failure a c ids)
    (hnodup : ids.Nodup) (hold : ∀ x ∈ ids, a.WrapsOld b.size x) :
    Replays (Analysis.checkClass b.registry id) (.error failure) a c ids := by
  have hold' : ∀ own : List ExprId, own.Sublist ids → ∀ x ∈ own, a.WrapsOld b.size x :=
    fun own hsub x hx => hold x (hsub.subset hx)
  apply replays_checkClass
  -- the class was stopped in the pass over the attributes, or in the one over the methods
  rcases h with h | h
  · refine .bind_error (replays_eachFeature_error (h.mono (fun _ _ _ _ h => h) ?_ ?_))
    · exact fun _ f own hsub hf => hf.replays_onAttribute hb (hnodup.sublist hsub) (hold' own hsub)
    · rintro _ f own hsub ⟨hmethod, hf⟩
      rw [← Feature.check_of_not_isMethod hmethod]
      exact hf.replays hb (hnodup.sublist hsub) (hold' own hsub)
  · refine .bind (replays_eachFeature ?_)
      (replays_eachFeature_error (h.mono (fun _ _ _ _ h => h) ?_ ?_))
    · refine (h.mono ?_ ?_ ?_).eachFrom
      · exact fun _ f own hsub hf =>
          hf.replays_onAttribute hb (hnodup.sublist hsub) (hold' own hsub)
      · exact fun _ f own hsub hf =>
          hf.replays_onAttribute hb (hnodup.sublist hsub) (hold' own hsub)
      · exact fun _ f own _ hf => replays_onAttribute_of_isMethod hf.1
    · exact fun _ f own hsub hf => hf.replays_onMethod hb (hnodup.sublist hsub) (hold' own hsub)
    · rintro _ f own hsub ⟨hmethod, hf⟩
      rw [← Feature.check_of_isMethod hmethod]
      exact hf.replays hb (hnodup.sublist hsub) (hold' own hsub)

/-- The check of all classes, run again on what it has left. -/
theorem exists_checkClasses_again (hb : b.Steady) {classes classes' : List Class}
    {result : Except Failure Unit} {s : Checking} {log : Array Event}
    (h : EachFrom (fun k => Features (b.Raw (Analysis.classId k))) a 0 classes ids)
    (hnodup : ids.Nodup)
    (hrun : Step.eachFrom (fun k => Analysis.checkClass b.registry (Analysis.classId k)) 0 classes
      ⟨a, log⟩ = (result, s, classes'))
    (hold : ∀ x, s.arena.WrapsOld b.size x) (log : Array Event) :
    ∃ c log', Step.eachFrom (fun k => Analysis.checkClass b.registry (Analysis.classId k)) 0
      classes'
        ⟨s.arena, log⟩ = (result, ⟨c, log'⟩, classes') ∧
      s.arena.Appends c ∧ (result = .ok () → c = s.arena) := by
  obtain ⟨c, classes'', ids', log', hgrows, hfirst⟩ := keeps_checkClasses h hnodup _
  -- what the first run has left is told by how it has ended, class by class
  have hchecked {k : Nat} {d : Class} {own : List ExprId} (hsub : own.Sublist ids')
      (hd : Features (b.Checked (Analysis.classId k)) s.arena d own) :=
    replays_of_checked hb hd (hgrows.nodup.sublist hsub) fun x _ => hold x
  have hhalted {k : Nat} {d : Class} {failure : Failure} {own : List ExprId}
      (hsub : own.Sublist ids')
      (hd : b.Halted (Analysis.classId k) failure s.arena d own) :=
    hd.replays hb (hgrows.nodup.sublist hsub) fun x _ => hold x
  rcases hfirst with ⟨hfirst, hall⟩ | ⟨failure, hfirst, htrail⟩
  · obtain ⟨rfl, rfl, rfl⟩ := by simpa using hrun.symm.trans hfirst
    have hsettled := hall.mono fun k d own hsub hd => hchecked hsub hd
    obtain ⟨log', hagain⟩ := hsettled.replays log le_rfl fun _ _ => rfl
    exact ⟨c, log', hagain, .refl c, fun _ => rfl⟩
  · obtain ⟨rfl, rfl, rfl⟩ := by simpa using hrun.symm.trans hfirst
    let again (k : Nat) := Analysis.checkClass b.registry (Analysis.classId k)
    have hsettled : Trail (fun k => Features (b.Raw (Analysis.classId k)))
        (fun k => Replays (again k) (.ok ())) (fun k failure => Replays (again k) (.error failure))
        failure c 0 classes' ids' :=
      htrail.mono (fun _ _ _ _ hd => hd) (fun k d own hsub hd => hchecked hsub hd)
        fun k d own hsub hd => hhalted hsub hd
    obtain ⟨c', log', hagain, happends⟩ := hsettled.replays log le_rfl fun _ _ => rfl
    exact ⟨c', log', hagain, happends, nofun⟩

end Bodies

end Lcpl

import Lcpl.Proofs.Analysis.Annotations
import Lcpl.Proofs.Analysis.Phases

/-!
# What becomes of the features

A check that ends well makes new nodes, and every one of them is put to use: behind the check it
belongs to the feature for which it was made. No node of the feature is lost either. So the nodes of
an accepted program are accounted for. They are those of its features, which are known from
elaboration, and beside them those that no feature had from the start.

Each feature is followed here from the beginning to the end, as a pair of what it was and what it
is.

## Main definitions

* `Arena.Accounts` — a change that keeps every node, and owns every new one
* `Delivers` — what a step that ends well makes of an item
* `Delivered` — what the check of a feature makes of it
* `Program.DeliveredClass` — the same of a class of an accepted program

## Main results

* `Arena.Accounts.perm` — which nodes are owned in the end
* `delivers_eachFrom` — a step on every item
* `Program.exists_delivered` — what an accepted analysis makes of the classes of a program
-/

namespace Lcpl

variable {ι α κ : Type}

/-! ### Changes that keep every node -/

/-- The change keeps to what it owns, and whatever it owns or makes is owned in the end. -/
structure Arena.Accounts (a : Arena) (owned : List ExprId) (b : Arena) (owned' : List ExprId) : Prop
    extends a.Grows owned b owned' where
  count : b.size + owned.length = a.size + owned'.length

/-- The handles of `b` behind those of `a`. -/
def Arena.newIds (a b : Arena) : List ExprId := (List.range' a.size (b.size - a.size)).map ExprId.mk

theorem Arena.mem_newIds {a b : Arena} {x : ExprId} :
    x ∈ a.newIds b ↔ a.size ≤ x.index ∧ x.index < b.size := by
  obtain ⟨index⟩ := x
  simp only [newIds, List.mem_map, List.mem_range'_1, ExprId.mk.injEq, exists_eq_right]
  omega

namespace Arena.Accounts

variable {a b c : Arena} {owned owned' owned'' rest : List ExprId}

theorem refl (h : owned.Nodup) : a.Accounts owned a owned := ⟨.refl h, rfl⟩

theorem trans (h : a.Accounts owned b owned') (h' : b.Accounts owned' c owned'') :
    a.Accounts owned c owned'' := by
  refine ⟨h.toGrows.trans h'.toGrows, ?_⟩
  have := h.count
  have := h'.count
  omega

theorem frame (h : a.Accounts owned b owned') (hrest : (owned ++ rest).Nodup)
    (hlt : ∀ x ∈ rest, x.index < a.size) : a.Accounts (owned ++ rest) b (owned' ++ rest) := by
  refine ⟨h.toGrows.frame hrest hlt, ?_⟩
  have := h.count
  simp only [List.length_append]
  omega

theorem of_perm (h : a.Accounts owned b owned') {own own' : List ExprId} (hp : own.Perm owned)
    (hp' : own'.Perm owned') : a.Accounts own b own' :=
  ⟨h.toGrows.perm hp hp', by rw [hp.length_eq, hp'.length_eq, h.count]⟩

/-- What is owned in the end is what was owned, and every new node. -/
theorem perm (h : a.Accounts owned b owned') (hlt : ∀ x ∈ owned', x.index < b.size) :
    owned'.Perm (owned ++ a.newIds b) := by
  have hsub : owned' ⊆ owned ++ a.newIds b := by
    intro x hx
    rw [List.mem_append]
    exact (h.old_or_new x hx).imp_right fun hge => mem_newIds.mpr ⟨hge, hlt x hx⟩
  -- there is no room for a node that would be missing
  refine (List.subperm_of_subset h.nodup hsub).perm_of_length_le ?_
  have := h.count
  have := h.size_le
  simp only [List.length_append, newIds, List.length_map, List.length_range']
  omega

theorem mem_iff (h : a.Accounts owned b owned') (hlt : ∀ x ∈ owned', x.index < b.size)
    {x : ExprId} :
    x ∈ owned' ↔ x ∈ owned ∨ a.size ≤ x.index ∧ x.index < b.size := by
  rw [(h.perm hlt).mem_iff, List.mem_append, mem_newIds]

/-- Two changes of one arena that own as many nodes own the same ones. -/
theorem perm_of_length_eq (h : a.Accounts owned b owned') (h' : a.Accounts owned c owned'')
    (hlt : ∀ x ∈ owned', x.index < b.size) (hlt' : ∀ x ∈ owned'', x.index < c.size)
    (hlength : owned'.length = owned''.length) : b.size = c.size ∧ owned'.Perm owned'' := by
  have hsize : b.size = c.size := by
    have := h.count
    have := h'.count
    omega
  have hperm := h.perm hlt
  rw [newIds, hsize, ← newIds] at hperm
  exact ⟨hsize, hperm.trans (h'.perm hlt').symm⟩

end Arena.Accounts

/-! ### Steps that end well -/

/-- From an item with `P`, a run that ends well leaves the item with `Q`, and accounts for all
nodes. -/
def Delivers (P : Owned α) (step : Step (Checking × α) Unit) (Q : Owned α) : Prop :=
  ∀ a x ids log b x' log', P a x ids → ids.Nodup →
    step.runFrom (⟨a, log⟩, x) = (.ok (), ⟨b, log'⟩, x') →
      ∃ ids', a.Accounts ids b ids' ∧ Q b x' ids'

protected theorem Delivers.bind {P Q R : Owned α} {step next : Step (Checking × α) Unit}
    (h : Delivers P step Q) (hnext : Delivers Q next R) :
    Delivers P (step >>= fun _ => next) R := by
  intro a x ids log c z log' hx hnodup hrun
  obtain ⟨⟨⟩, ⟨⟨b, between⟩, y⟩, hfirst, hsecond⟩ := Step.runFrom_bind_eq_ok.mp hrun
  obtain ⟨ids', haccounts, hy⟩ := h _ _ _ _ _ _ _ hx hnodup hfirst
  obtain ⟨ids'', haccounts', hz⟩ := hnext _ _ _ _ _ _ _ hy haccounts.nodup hsecond
  exact ⟨ids'', haccounts.trans haccounts', hz⟩

/-- Items may be paired with others, each with one at its own place. -/
theorem EachFrom.map {P : Nat → Owned α} {Q : Nat → Owned κ} {f : α → κ} {a : Arena} {k : Nat}
    {xs : List α} {ids : List ExprId} (h : EachFrom P a k xs ids)
    (hPQ : ∀ i x own, xs[i]? = some x → P (k + i) a x own → Q (k + i) a (f x) own) :
    EachFrom Q a k (xs.map f) ids := by
  induction h with
  | nil => exact .nil
  | cons head tail ih =>
    refine .cons (hPQ 0 _ _ rfl head) (ih fun i x own hx hown => ?_)
    rw [show ∀ k, k + 1 + i = k + (i + 1) by omega] at hown ⊢
    exact hPQ (i + 1) x own hx hown

theorem EachFrom.jointly {P : Nat → Owned α} {R : α → List ExprId → Prop} {a : Arena} {k : Nat}
    {xs : List α} {ids : List ExprId} (h : EachFrom P a k xs ids)
    (hPR : ∀ k x own, P k a x own → R x own) : Jointly R xs ids := by
  induction h with
  | nil => exact .nil
  | cons head tail ih => exact .cons (hPR _ _ _ head) ih

/-- A step on the second component of every pair of a list. The first component stays, as a reminder
of where the second one comes from. -/
theorem delivers_eachFrom {P Q : Nat → Owned (κ × α)} {step : Nat → Step (Checking × α) Unit}
    (hstep : ∀ k o, Delivers (fun a x => P k a (o, x)) (step k) fun a x => Q k a (o, x))
    (hP : ∀ k, (P k).Framed) (hQ : ∀ k, (Q k).Framed) {a b : Arena} {k : Nat}
    {pairs : List (κ × α)} {ids : List ExprId} {log log' : Array Event} {ys : List α}
    (h : EachFrom P a k pairs ids) (hnodup : ids.Nodup)
    (hrun : Step.eachFrom step k (pairs.map Prod.snd) ⟨a, log⟩ = (.ok (), ⟨b, log'⟩, ys)) :
    ∃ pairs' ids', a.Accounts ids b ids' ∧ EachFrom Q b k pairs' ids' ∧
      pairs'.map Prod.fst = pairs.map Prod.fst ∧ pairs'.map Prod.snd = ys := by
  induction pairs generalizing k a ids log ys with
  | nil =>
    cases h
    obtain ⟨⟨rfl, -⟩, rfl⟩ := by simpa [Step.eachFrom] using hrun
    exact ⟨[], [], .refl .nil, .nil, rfl, rfl⟩
  | cons pair pairs ih =>
    obtain ⟨o, x⟩ := pair
    cases h with
    | cons head tail =>
      rename_i own rest
      rw [List.map_cons] at hrun
      obtain ⟨⟨between, log₁⟩, x', zs, hx, hrest, rfl⟩ := Step.exists_of_eachFrom_cons_ok hrun
      have hlt := (EachFrom.framed hP (k + 1)).lt_size tail
      obtain ⟨own', haccounts, hx'⟩ :=
        hstep k o _ _ _ _ _ _ _ head (List.nodup_append.mp hnodup).1 hx
      have hframe := haccounts.frame hnodup hlt
      have htail := (EachFrom.framed hP (k + 1)).of_get? tail haccounts.size_le
        (haccounts.get?_eq_of_append hnodup hlt)
      obtain ⟨pairs', rest', haccounts', hpairs', hfst, hsnd⟩ :=
        ih htail (List.nodup_append.mp hframe.nodup).2.1 hrest
      -- the item that was handled first stays beside the others
      have hswap : (rest ++ own').Nodup := List.perm_append_comm.nodup_iff.mp hframe.nodup
      have hown := (hQ k).lt_size hx'
      have hx'' := (hQ k).of_get? hx' haccounts'.size_le
        (haccounts'.get?_eq_of_append hswap hown)
      refine ⟨(o, x') :: pairs', own' ++ rest', hframe.trans
        ((haccounts'.frame hswap hown).of_perm List.perm_append_comm List.perm_append_comm),
        .cons hx'' hpairs', ?_, ?_⟩
      · rw [List.map_cons, List.map_cons, hfst]
      · rw [List.map_cons, hsnd]

/-! ### Classes -/

/-- A class, and what it was: its features are paired. -/
def PairedClass (R : Owned (Feature × Feature)) : Owned (Class × Class) := fun a pair ids =>
  ∃ features, features.map Prod.fst = pair.1.features ∧
    pair.2 = { pair.1 with features := features.map Prod.snd } ∧
    EachFrom (fun _ => R) a 0 features ids

theorem framed_pairedClass {R : Owned (Feature × Feature)} (hR : R.Framed) :
    (PairedClass R).Framed where
  lt_size h := by
    obtain ⟨pairs, -, -, hpairs⟩ := h
    exact (EachFrom.framed (fun _ => hR) 0).lt_size hpairs
  of_get? h hsize hget := by
    obtain ⟨pairs, hfst, hsnd, hpairs⟩ := h
    exact ⟨pairs, hfst, hsnd, (EachFrom.framed (fun _ => hR) 0).of_get? hpairs hsize hget⟩

/-- A step on every feature of a class. -/
theorem delivers_eachFeature {R S : Owned (Feature × Feature)}
    {step : Step (Checking × Feature) Unit}
    (hstep : ∀ f₀, Delivers (fun a f => R a (f₀, f)) step fun a f => S a (f₀, f)) (hR : R.Framed)
    (hS : S.Framed) (c₀ : Class) :
    Delivers (fun a c => PairedClass R a (c₀, c)) (Class.eachFeature step)
      fun a c => PairedClass S a (c₀, c) := by
  rintro a c ids log b c' log' ⟨pairs, hfst, hc, hpairs⟩ hnodup hrun
  obtain rfl : c = { c₀ with features := pairs.map Prod.snd } := hc
  rw [Class.runFrom_eachFeature] at hrun
  rcases hall : Step.eachFrom (fun _ => step) 0 (pairs.map Prod.snd) ⟨a, log⟩ with
    ⟨result, ⟨d, log₁⟩, features⟩
  dsimp only at hrun
  rw [hall] at hrun
  obtain ⟨rfl, ⟨rfl, rfl⟩, rfl⟩ := by simpa using hrun
  obtain ⟨pairs', ids', haccounts, hpairs', hfst', hsnd⟩ :=
    delivers_eachFrom (fun _ => hstep) (fun _ => hR) (fun _ => hS) hpairs hnodup hall
  exact ⟨ids', haccounts, pairs', hfst'.trans hfst, by rw [hsnd], hpairs'⟩

/-! ### Features -/

/-- What the check of a feature makes of it, if it ends well. A feature without root stays as it is.
Any other is given the root that reads as what elaboration makes of the tree in `base`. -/
inductive Delivered (registry : Registry) (made : ι) (mark : ExprId → ι) (base : Arena)
    (id : ClassId) (a : Arena) : Feature × Feature → List ExprId → Prop where
  | plain {f} (hroot : f.root = none) : Delivered registry made mark base id a (f, f) []
  | rooted {f name root Γ e t t' ids root' ids'} (hname : registry.name? id = some name)
      (hroot : f.root = some root) (hsetting : f.setting? registry id = some (Γ, e))
      (hread : base.Reads mark root t ids) (helaborate : e.elaborate Γ made t = (.ok (), t'))
      (hread' : a.Reads mark root' t' ids') :
      Delivered registry made mark base id a (f, (f.prepared name).withRoot root') ids'

namespace Delivered

variable {registry : Registry} {made : ι} {mark : ExprId → ι} {base : Arena} {id : ClassId}

theorem framed : Owned.Framed (Delivered registry made mark base id) where
  lt_size h := by
    cases h with
    | plain => simp
    | rooted _ _ _ _ _ hread' => exact hread'.lt_size
  of_get? h _ hget := by
    cases h with
    | plain hroot => exact .plain hroot
    | rooted hname hroot hsetting hread helaborate hread' =>
      exact .rooted hname hroot hsetting hread helaborate (hread'.of_get? hget)

theorem isMethod_eq {a : Arena} {f₀ f : Feature} {ids : List ExprId}
    (h : Delivered registry made mark base id a (f₀, f) ids) : f.isMethod = f₀.isMethod := by
  cases h with
  | plain => rfl
  | rooted => rcases f₀ with m | attr <;> rfl

end Delivered

namespace Bodies

variable (b : Bodies ι) (base : Arena) (id : ClassId)

/-- A feature in front of its check, whose nodes are as they are in `base`. -/
def Waiting : Owned (Feature × Feature) := fun a pair ids =>
  pair.2 = pair.1 ∧ b.Raw id base pair.1 ids ∧ base.size ≤ a.size ∧
    ∀ x ∈ ids, a.get? x = base.get? x

/-- A feature between the two passes over its class. -/
def HalfDelivered : Owned (Feature × Feature) := fun a pair ids =>
  if pair.1.isMethod then b.Waiting base id a pair ids
  else Delivered b.registry b.made b.mark base id a pair ids

variable {b base id}

theorem framed_waiting : Owned.Framed (b.Waiting base id) where
  lt_size {a x ids} h i hi := by
    obtain ⟨-, hraw, hsize, -⟩ := h
    exact (framed_raw.lt_size hraw i hi).trans_le hsize
  of_get? {a c x ids} h hsize hget := by
    obtain ⟨hf, hraw, hbase, hsame⟩ := h
    exact ⟨hf, hraw, hbase.trans hsize, fun i hi => (hget i hi).trans (hsame i hi)⟩

theorem framed_halfDelivered : Owned.Framed (b.HalfDelivered base id) where
  lt_size {a x ids} h := by
    unfold HalfDelivered at h
    split at h
    · exact framed_waiting.lt_size h
    · exact Delivered.framed.lt_size h
  of_get? {a c x ids} h hsize hget := by
    unfold HalfDelivered at h ⊢
    split at h
    · next hmethod => rw [if_pos hmethod]; exact framed_waiting.of_get? h hsize hget
    · next hmethod => rw [if_neg hmethod]; exact Delivered.framed.of_get? h hsize hget

/-- The check of a feature. -/
theorem delivers_check (f₀ : Feature) :
    Delivers (fun a f => b.Waiting base id a (f₀, f)) (f₀.check b.registry id)
      fun a f => Delivered b.registry b.made b.mark base id a (f₀, f) := by
  rintro a f ids log c f' log' ⟨hf, hraw, hsize, hsame⟩ hnodup hrun
  obtain rfl : f = f₀ := hf
  have hadmission : f.admission b.registry id = .ok () := by
    cases hadmission : f.admission b.registry id with
    | ok => rfl
    | error failure =>
      rw [Feature.runFrom_check_of_error hadmission] at hrun
      cases hrun
  rcases hraw.rooted with ⟨hroot, rfl⟩ | ⟨root, t, hroot, hread, -⟩
  · rw [Feature.runFrom_check_none hadmission hroot] at hrun
    obtain ⟨⟨rfl, rfl⟩, rfl⟩ := by simpa using hrun
    exact ⟨[], .refl .nil, .plain hroot⟩
  · obtain ⟨name, hname⟩ := hraw.known.className
    obtain ⟨Γ, e, hsetting⟩ := Feature.exists_setting hraw.known.declares
    have hnew : ∀ x : ExprId, a.size ≤ x.index → b.mark x = b.made :=
      fun x hx => b.mark_new x (hraw.known.size_le.trans (hsize.trans hx))
    -- the nodes of the feature are still as they were, so the check does what elaboration says
    obtain ⟨d, log'', root', ids', hcheck, hreads, hgrows, hcount, -⟩ :=
      Expectation.exists_run (hread.of_get? hsame) hnodup hnew Γ e log
    rw [Feature.runFrom_check_some hadmission hroot hsetting hname hcheck] at hrun
    rcases helaborate : e.elaborate Γ b.made t with ⟨failure | ⟨⟩, t'⟩
    · rw [helaborate] at hrun
      cases hrun
    · rw [helaborate] at hrun hreads hcount
      obtain ⟨⟨rfl, rfl⟩, rfl⟩ := by simpa [Except.map] using hrun
      exact ⟨ids', ⟨hgrows, hcount rfl⟩, .rooted hname hroot hsetting hread helaborate hreads⟩

theorem delivers_onAttribute (f₀ : Feature) :
    Delivers (fun a f => b.Waiting base id a (f₀, f))
      (Feature.onAttribute (Analysis.checkAttribute b.registry id))
      fun a f => b.HalfDelivered base id a (f₀, f) := by
  intro a f ids log c f' log' hf hnodup hrun
  -- the first pass leaves the methods to the second
  cases hmethod : f₀.isMethod with
  | true =>
    obtain rfl : f = f₀ := hf.1
    rcases f with m | attr
    · obtain ⟨⟨rfl, rfl⟩, rfl⟩ := by simpa using hrun
      exact ⟨ids, .refl hnodup, hf⟩
    · cases hmethod
  | false =>
    rw [← Feature.check_of_not_isMethod hmethod] at hrun
    obtain ⟨ids', haccounts, hf'⟩ := delivers_check f₀ _ _ _ _ _ _ _ hf hnodup hrun
    refine ⟨ids', haccounts, ?_⟩
    show b.HalfDelivered base id c (f₀, f') ids'
    rwa [HalfDelivered, if_neg (by rw [hmethod]; nofun)]

theorem delivers_onMethod (f₀ : Feature) :
    Delivers (fun a f => b.HalfDelivered base id a (f₀, f))
      (Feature.onMethod (Analysis.checkMethod b.registry id))
      fun a f => Delivered b.registry b.made b.mark base id a (f₀, f) := by
  intro a f ids log c f' log' hf hnodup hrun
  cases hmethod : f₀.isMethod with
  | true =>
    rw [HalfDelivered, if_pos hmethod] at hf
    rw [← Feature.check_of_isMethod hmethod] at hrun
    exact delivers_check f₀ _ _ _ _ _ _ _ hf hnodup hrun
  | false =>
    rw [HalfDelivered, if_neg (by rw [hmethod]; nofun)] at hf
    have hkind := hf.isMethod_eq.trans hmethod
    rcases f with m | attr
    · cases hkind
    · obtain ⟨⟨rfl, rfl⟩, rfl⟩ := by simpa using hrun
      exact ⟨ids, .refl hnodup, hf⟩

/-- The check of a class: the attributes first, then the methods. -/
theorem delivers_checkClass (c₀ : Class) :
    Delivers (fun a c => PairedClass (b.Waiting base id) a (c₀, c))
      (Analysis.checkClass b.registry id)
      fun a c => PairedClass (Delivered b.registry b.made b.mark base id) a (c₀, c) := by
  refine .bind (Q := fun a c => PairedClass (b.Waiting base id) a (c₀, c)) ?_
    (.bind (Q := fun a c => PairedClass (b.HalfDelivered base id) a (c₀, c)) ?_ ?_)
  · intro a c ids log d c' log' hc hnodup hrun
    obtain ⟨⟨rfl, -⟩, rfl⟩ := by simpa using hrun
    exact ⟨ids, .refl hnodup, hc⟩
  · exact delivers_eachFeature delivers_onAttribute framed_waiting framed_halfDelivered c₀
  · exact delivers_eachFeature delivers_onMethod framed_halfDelivered Delivered.framed c₀

/-- The class at a position, with what it was. -/
def PairedClassAt (b : Bodies ι) (k : Nat) (R : ClassId → Owned (Feature × Feature)) :
    Owned (Class × Class) := fun a pair ids =>
  b.registry.name? (Analysis.classId k) = some pair.1.name ∧
    PairedClass (R (Analysis.classId k)) a pair ids

theorem framed_pairedClassAt {k : Nat} {R : ClassId → Owned (Feature × Feature)}
    (hR : ∀ id, (R id).Framed) : (b.PairedClassAt k R).Framed where
  lt_size h := (framed_pairedClass (hR _)).lt_size h.2
  of_get? h hsize hget := ⟨h.1, (framed_pairedClass (hR _)).of_get? h.2 hsize hget⟩

theorem delivers_checkClassAt (k : Nat) (c₀ : Class) :
    Delivers (fun a c => b.PairedClassAt k (b.Waiting base) a (c₀, c))
      (Analysis.checkClass b.registry (Analysis.classId k))
      fun a c => b.PairedClassAt k (Delivered b.registry b.made b.mark base) a (c₀, c) := by
  intro a c ids log d c' log' hc hnodup hrun
  obtain ⟨ids', haccounts, hc'⟩ := delivers_checkClass c₀ _ _ _ _ _ _ _ hc.2 hnodup hrun
  exact ⟨ids', haccounts, hc.1, hc'⟩

/-- In front of the check, every class and every feature is paired with itself. -/
theorem waiting_of_raw {classes : List Class} {ids : List ExprId}
    (h : EachFrom (fun k => Features (b.Raw (Analysis.classId k))) base 0 classes ids)
    (hname : ∀ i c, classes[i]? = some c → b.registry.name? (Analysis.classId i) = some c.name) :
    EachFrom (fun k => b.PairedClassAt k (b.Waiting base)) base 0 (classes.map fun c => (c, c))
      ids := by
  refine h.map fun i c own hc hown => ?_
  rw [Nat.zero_add] at hown ⊢
  refine ⟨hname i c hc, c.features.map fun f => (f, f), ?_, ?_, ?_⟩
  · simp [Function.comp_def]
  · simp [Function.comp_def]
  · exact EachFrom.map hown fun j f own _ hf => ⟨rfl, hf, le_rfl, fun _ _ => rfl⟩

end Bodies

/-! ### Programs -/

namespace Program

/-- What the analysis of a program makes of a class, if it ends well. -/
def DeliveredClass (p : Program) (pair : Class × Class) (ids : List ExprId) : Prop :=
  ∃ id features, p.table.find? pair.1.name = some id ∧ features.map Prod.fst = pair.1.features ∧
    pair.2 = { pair.1 with features := features.map Prod.snd } ∧
    Jointly (Delivered p.table none p.original? p.exprs id p.analyse.program.exprs) features ids

variable {p : Program} {registry : Registry} {ids : List ExprId}

/-- What an accepted analysis makes of the classes of a program. All their nodes are accounted
for. -/
theorem exists_delivered
    (hids : Jointly (p.exprs.Readable p.original?) (p.classes.flatMap Class.roots) ids)
    (hnodup : ids.Nodup) (h : p.analyse.result = .ok registry) :
    ∃ pairs ids', p.exprs.Accounts ids p.analyse.program.exprs ids' ∧
      (∀ x ∈ ids', x.index < p.analyse.program.exprs.size) ∧
      Jointly p.DeliveredClass pairs ids' ∧
      pairs.map Prod.fst = p.classes.map (Class.annotated p.table) ∧
      pairs.map Prod.snd = p.analyse.program.classes := by
  obtain ⟨r, s, classes, hdeclare, rfl, hbodies, hprogram⟩ := exists_of_analyse_ok h
  obtain ⟨-, htable⟩ := declarations_eq_ok_iff.mp (declarations_of_declare hdeclare)
  obtain ⟨hcoherent, hdeclares⟩ := Analysis.declares_of_declare hdeclare
  -- a node is marked with its handle if it was there before, and with none if it is made
  let b : Bodies (Option ExprId) := ⟨r.registry, fun _ => .any, none, p.original?, p.exprs.size,
    hcoherent, trivial, fun x hx => if_neg (Nat.not_lt.mpr hx)⟩
  have hraw := Analysis.raw_of_readable b hids hdeclare rfl rfl
    fun _ node _ => Naming.holds_any node.expr
  have hstart := Bodies.waiting_of_raw hraw fun i c hc => (hdeclares i c hc).1
  -- each class is paired with itself, and the checks change the second of each pair
  have hrun : Step.eachFrom (fun k => Analysis.checkClass b.registry (Analysis.classId k)) 0
      ((r.program.classes.map fun c => (c, c)).map Prod.snd)
      ⟨p.exprs, r.log.push .hierarchyAcyclic⟩ = (.ok (), s, classes) := by
    rw [List.map_map, show (Prod.snd ∘ fun c : Class => (c, c)) = id from rfl, List.map_id]
    exact hbodies
  obtain ⟨pairs, ids', haccounts, hpairs, hfst, hsnd⟩ := delivers_eachFrom
    (Q := fun k => b.PairedClassAt k (Delivered b.registry b.made b.mark p.exprs))
    (fun k c₀ => Bodies.delivers_checkClassAt k c₀)
    (fun k => Bodies.framed_pairedClassAt fun _ => Bodies.framed_waiting)
    (fun k => Bodies.framed_pairedClassAt fun _ => Delivered.framed) hstart hnodup hrun
  rw [hprogram]
  refine ⟨pairs, ids', haccounts, ?_, ?_, ?_, hsnd⟩
  · exact (EachFrom.framed (fun k => Bodies.framed_pairedClassAt fun _ => Delivered.framed)
      0).lt_size
      hpairs
  · refine hpairs.jointly fun k pair own hpair => ?_
    obtain ⟨hname, features, hfeatures, hsame, hall⟩ := hpair
    refine ⟨Analysis.classId k, features, ?_, hfeatures, hsame, ?_⟩
    · obtain ⟨d, hd, hname⟩ := Option.map_eq_some_iff.mp hname
      rw [← htable, ← hname]
      exact hcoherent.find?_name hd
    · rw [← htable, hprogram]
      exact hall.jointly fun _ _ _ h => h
  · rw [hfst, List.map_map, show (Prod.fst ∘ fun c : Class => (c, c)) = id from rfl, List.map_id]
    exact Analysis.classes_of_declare hdeclare

end Program

end Lcpl

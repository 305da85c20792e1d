import Lcpl.Proofs.Arena.Annotates

/-!
# Annotations that change nothing

Where a node reads as the same term before and after it was annotated, no node below it has changed,
and its slot holds what it held. The marks tell new nodes from old ones. The only change that a term
would not show is a new cast in the place of an equal one, which would then stand around a new node:
casts are not made around casts.

## Main definitions

* `Arena.WrapsOld` — a new cast stands around an old node

## Main results

* `Arena.Annotates.settled` — what reads as before is as before
-/

namespace Lcpl

variable {ι : Type}

namespace Arena

variable {registry : Registry} {W : ExprId → ClassId → Prop} {a b : Arena} {mark : ExprId → ι}
variable {made : ι} {n : Nat} {t : Term ι} {slot slot' : ExprId} {ids ids' : List ExprId}

/-- If the node is a cast behind the first `n` nodes, it stands around one of those. -/
def WrapsOld (a : Arena) (n : Nat) (x : ExprId) : Prop :=
  n ≤ x.index → ∀ line typeName child type,
    a.get? x = some ⟨line, .cast typeName child, type⟩ → child.index < n

theorem WrapsOld.of_get? {x : ExprId} (h : a.WrapsOld n x) (hget : b.get? x = a.get? x) :
    b.WrapsOld n x :=
  fun hle line typeName child type hcast => h hle line typeName child type (hget ▸ hcast)

/-- A slot that reads as the same term in both arenas is the same, and so are the nodes below it. -/
def SettledAt (a b : Arena) (mark : ExprId → ι) (n : Nat) (slot : ExprId) (t : Term ι) : Prop :=
  ∀ slot' ids ids', (∀ x ∈ ids, a.WrapsOld n x) → b.LeadsTo a.size slot' slot →
    a.Reads mark slot t ids → b.Reads mark slot' t ids' →
    slot' = slot ∧ ∀ x ∈ ids, b.get? x = a.get? x

/-- A slot that reads as before has not been pointed at a new cast. That cast would stand around a
node that was made, in the place of one that was not. -/
theorem Reads.slot_eq (hmade : ∀ x, mark x = made ↔ n ≤ x.index) (hn : n ≤ a.size)
    (hold : a.WrapsOld n slot) (hslot : b.LeadsTo a.size slot' slot) (ha : a.Reads mark slot t ids)
    (hb : b.Reads mark slot' t ids') : slot' = slot := by
  rcases hslot with hsame | ⟨hnew, line, typeName, type, hcast⟩
  · exact hsame
  · exfalso
    obtain ⟨line₁, type₁, own, form, rfl, -, hget, hparts⟩ := ha.exists_form
    obtain ⟨line₂, type₂, own', form', hterm, -, hget', hparts'⟩ := hb.exists_form
    obtain ⟨hmark, rfl, hform, rfl⟩ := Term.node.inj hterm
    obtain ⟨-, hcast, -⟩ := by simpa using hget'.symm.trans hcast
    -- both nodes are casts, around nodes that read as the same term
    obtain ⟨part', rfl, rfl⟩ : ∃ part', form' = .cast typeName part' ∧ part'.1 = slot := by
      cases form' with
      | cast name part' =>
        obtain ⟨rfl, hslot⟩ := by simpa [Form.map] using hcast
        exact ⟨part', rfl, hslot⟩
      | _ => simp [Form.map] at hcast
    obtain ⟨part, rfl, hsame⟩ : ∃ part, form = .cast typeName part ∧ part.2 = part'.2 := by
      cases form with
      | cast name part =>
        obtain ⟨rfl, hsame⟩ := by simpa [Form.map] using hform
        exact ⟨part, rfl, hsame⟩
      | _ => simp [Form.map] at hform
    have hread := Jointly.singleton_iff.mp hparts
    have hread' := Jointly.singleton_iff.mp hparts'
    have hmadeSlot : mark part'.1 = made := hmark.trans ((hmade slot').mpr (hn.trans hnew))
    have hinside : mark part.1 = mark part'.1 := by
      rw [← hread.mark_eq, ← hread'.mark_eq, hsame]
    have hle : n ≤ part.1.index := (hmade part.1).mp (hinside.trans hmadeSlot)
    have hlt := hold ((hmade part'.1).mp hmadeSlot) _ _ _ _ hget
    omega

/-- Parts that read as before are as before, if each of them is. -/
theorem settled_parts {parts parts' : List (ExprId × Term ι)}
    (h : ∀ part ∈ parts, a.SettledAt b mark n part.1 part.2)
    (ha : Jointly (fun part => a.Reads mark part.1 part.2) parts ids)
    (hb : Jointly (fun part => b.Reads mark part.1 part.2) parts' ids')
    (hold : ∀ x ∈ ids, a.WrapsOld n x) (hterms : parts'.map Prod.snd = parts.map Prod.snd)
    (hslots : List.Forall₂ (b.LeadsTo a.size) (parts'.map Prod.fst) (parts.map Prod.fst)) :
    parts' = parts ∧ ∀ x ∈ ids, b.get? x = a.get? x := by
  induction parts generalizing parts' ids ids' with
  | nil =>
    obtain rfl := List.map_eq_nil_iff.mp hterms
    obtain rfl := Jointly.nil_iff.mp ha
    simp
  | cons part parts ih =>
    obtain ⟨part', parts', rfl, hterm, hterms⟩ := List.map_eq_cons_iff.mp hterms
    obtain ⟨own, rest, rfl, hread, ha⟩ := Jointly.cons_iff.mp ha
    obtain ⟨own', rest', rfl, hread', hb⟩ := Jointly.cons_iff.mp hb
    obtain ⟨hslot, hslots⟩ := List.forall₂_cons.mp hslots
    rw [List.forall_mem_append] at hold
    rw [hterm] at hread'
    obtain ⟨hsame, hget⟩ :=
      h part List.mem_cons_self part'.1 own own' hold.1 hslot hread hread'
    obtain ⟨rfl, hrest⟩ :=
      ih (fun part hpart => h part (List.mem_cons_of_mem _ hpart)) ha hb hold.2 hterms hslots
    exact ⟨congrArg (· :: parts') (Prod.ext hsame hterm), List.forall_mem_append.mpr ⟨hget, hrest⟩⟩

/-- An expression that was reworked into one of the same form, over slots that lead to the old
ones. -/
theorem Reworks.forall₂_of_map_snd {k : ClassId} {form form' : Form (ExprId × Term ι)}
    (h : b.Reworks registry n k (form.map Prod.fst) (form'.map Prod.fst))
    (hform : form'.map Prod.snd = form.map Prod.snd) :
    List.Forall₂ (b.LeadsTo n) (form'.map Prod.fst).children (form.map Prod.fst).children := by
  generalize hexpr : form.map Prod.fst = expr at h
  generalize hexpr' : form'.map Prod.fst = expr' at h
  cases h with
  | slots _ hchildren => exact hchildren
  | receiver _ _ =>
    -- the term would show the receiver
    exfalso
    cases form with
    | dispatch receiver name args =>
      obtain ⟨rfl, -⟩ := by simpa [Form.map] using hexpr
      cases form' with
      | dispatch receiver' name' args' =>
        obtain ⟨⟨p, q, rfl⟩, -⟩ := by simpa [Form.map] using hexpr'
        simp [Form.map] at hform
      | _ => simp [Form.map] at hexpr'
    | _ => simp [Form.map] at hexpr
  | qualified htarget _ _ =>
    -- the term would show the target
    exfalso
    cases form with
    | assignment target value =>
      obtain ⟨rfl, -⟩ := by simpa [Form.map] using hexpr
      cases form' with
      | assignment target' value' =>
        obtain ⟨rfl, -⟩ := by simpa [Form.map] using hexpr'
        obtain ⟨rfl, -⟩ := by simpa [Form.map] using hform
        have hlength := congrArg List.length htarget
        simp only [List.length_append, List.length_cons] at hlength
        omega
      | _ => simp [Form.map] at hexpr'
    | _ => simp [Form.map] at hexpr

/-- What reads as before is as before. -/
theorem Annotates.settled (h : a.Annotates registry W b) (hmade : ∀ x, mark x = made ↔ n ≤ x.index)
    (hn : n ≤ a.size) (slot : ExprId) (t : Term ι) : a.SettledAt b mark n slot t := by
  induction t using Term.induction generalizing slot with
  | node m line form type ih =>
    intro slot' ids ids' hold hslot ha hb
    obtain rfl := ha.slot_eq hmade hn (hold slot ha.mem_self) hslot hb
    refine ⟨rfl, ?_⟩
    obtain ⟨line₁, type₁, own, formA, hterm, rfl, hget, hparts⟩ := ha.exists_form
    obtain ⟨line₂, type₂, own', formB, hterm', rfl, hget', hparts'⟩ := hb.exists_form
    obtain ⟨-, rfl, rfl, rfl⟩ := Term.node.inj hterm
    obtain ⟨-, rfl, hform, rfl⟩ := Term.node.inj hterm'
    -- each slot of the node leads to what it led to, and the part below reads as before
    have hslots : List.Forall₂ (b.LeadsTo a.size) (formB.map Prod.fst).children
        (formA.map Prod.fst).children := by
      rcases h.node slot' _ hget with hsame | ⟨k, expr, type, -, hafter, hreworks⟩
      · obtain ⟨-, hsame, -⟩ := Node.mk.inj (Option.some_inj.mp (hget'.symm.trans hsame))
        rw [hsame]
        exact forall₂_leadsTo_refl _
      · obtain ⟨-, rfl, -⟩ := Node.mk.inj (Option.some_inj.mp (hget'.symm.trans hafter))
        exact hreworks.forall₂_of_map_snd hform.symm
    rw [Form.children_map, Form.children_map] at hslots
    have hterms : formB.children.map Prod.snd = formA.children.map Prod.snd := by
      rw [← Form.children_map, ← Form.children_map, hform]
    rw [List.forall_mem_cons] at hold ⊢
    obtain ⟨hchildren, hbelow⟩ := settled_parts
      (fun part hpart => ih part.2 (Form.mem_children_map hpart) part.1) hparts hparts'
      hold.2 hterms
      hslots
    obtain rfl := Form.eq_of_map_eq hform.symm hchildren
    exact ⟨hget'.trans hget.symm, hbelow⟩

end Arena

end Lcpl

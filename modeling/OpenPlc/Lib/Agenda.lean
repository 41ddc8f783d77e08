import Mathlib.Data.List.Perm.Basic

/-! Items in an order, where a new one goes before the first that it precedes. -/
namespace OpenPlc.Agenda

variable {α : Type*} (less : α → α → Bool)

def insertBy (item : α) : List α → List α
  | [] => [item]
  | first :: rest => if less item first then item :: first :: rest else first :: insertBy item rest

variable {less}

theorem insertBy_perm (item : α) (items : List α) : (insertBy less item items).Perm (item :: items) := by
  induction items with
  | nil => exact List.Perm.refl _
  | cons first rest ih =>
    rw [insertBy]
    split_ifs
    · exact List.Perm.refl _
    · exact (ih.cons first).trans (List.Perm.swap item first rest)

theorem mem_insertBy {item other : α} {items : List α} : other ∈ insertBy less item items ↔ other = item ∨ other ∈ items := by
  rw [(insertBy_perm item items).mem_iff,List.mem_cons]

theorem insertBy_pairwise {R : α → α → Prop} (trans : ∀ {a b c}, R a b → R b c → R a c) (item : α) (items : List α)
    (ordered : items.Pairwise R) (ahead : ∀ b ∈ items, less item b = true → R item b)
    (behind : ∀ b ∈ items, less item b = false → R b item) : (insertBy less item items).Pairwise R := by
  induction items with
  | nil => exact List.pairwise_singleton R item
  | cons first rest ih =>
    obtain ⟨least,ordered⟩ := List.pairwise_cons.mp ordered
    rw [insertBy]
    cases before : less item first with
    | true =>
      have precedes := ahead first List.mem_cons_self before
      rw [if_pos rfl]
      refine List.pairwise_cons.mpr ⟨?_,List.pairwise_cons.mpr ⟨least,ordered⟩⟩
      intro other among
      rcases List.mem_cons.mp among with rfl | later
      · exact precedes
      · exact trans precedes (least other later)
    | false =>
      rw [if_neg Bool.false_ne_true]
      refine List.pairwise_cons.mpr ⟨?_,ih ordered (fun b later => ahead b (List.mem_cons_of_mem first later))
        fun b later => behind b (List.mem_cons_of_mem first later)⟩
      intro other among
      rcases mem_insertBy.mp among with rfl | later
      · exact behind first List.mem_cons_self before
      · exact least other later

theorem eraseP_perm (p : α → Bool) (items : List α) : ((items.find? p).toList ++ items.eraseP p).Perm items := by
  induction items with
  | nil => exact List.Perm.refl _
  | cons first rest ih =>
    cases found : p first with
    | true =>
      rw [List.find?_cons_of_pos found,List.eraseP_cons_of_pos found]
      exact List.Perm.refl _
    | false =>
      have other : ¬ p first = true := Bool.not_eq_true _ ▸ found
      rw [List.find?_cons_of_neg other,List.eraseP_cons_of_neg other]
      exact List.perm_middle.trans (ih.cons first)

end OpenPlc.Agenda

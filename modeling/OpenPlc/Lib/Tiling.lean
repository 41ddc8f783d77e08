import Mathlib.Algebra.GroupWithZero.Nat
import Mathlib.Data.List.Chain
import Mathlib.Tactic.Common

/-! Blocks that tile a range of addresses one behind the other, some of them used. -/
namespace OpenPlc.Tiling

structure Block where
  len : Nat
  used : Bool

def total (blocks : List Block) : Nat := (blocks.map Block.len).sum

/-- The blocks and where they begin. -/
def places (start : Nat) : List Block → List (Nat × Block)
  | [] => []
  | b :: rest => (start,b) :: places (start + b.len) rest

/-- Where the first free block begins, or the end of all. -/
def firstFree (start : Nat) : List Block → Nat
  | [] => start
  | b :: rest => if b.used then firstFree (start + b.len) rest else start

/-- No two blocks in a row are free. -/
def Separated (blocks : List Block) : Prop := blocks.IsChain fun a b => a.used = true ∨ b.used = true

section Totals
variable {start : Nat} {first second : List Block} {b : Block}

@[simp] theorem total_nil : total [] = 0 := rfl

@[simp] theorem total_cons (b : Block) (rest : List Block) : total (b :: rest) = b.len + total rest := rfl

@[simp] theorem total_append (first second : List Block) : total (first ++ second) = total first + total second := by
  simp only [total,List.map_append,List.sum_append]

theorem places_append (start : Nat) (first second : List Block) :
    places start (first ++ second) = places start first ++ places (start + total first) second := by
  induction first generalizing start with
  | nil => rfl
  | cons b rest ih => simp only [List.cons_append,places,ih,total_cons,Nat.add_assoc]

theorem places_bounds {x : Nat} {blocks : List Block} (placed : (x,b) ∈ places start blocks) :
    start ≤ x ∧ x + b.len ≤ start + total blocks := by
  induction blocks generalizing start with
  | nil => contradiction
  | cons head rest ih =>
    rw [total_cons]
    rcases List.mem_cons.mp placed with same | later
    · cases same
      omega
    · have bounds := ih later
      omega

theorem mem_of_placed {x : Nat} {blocks : List Block} (placed : (x,b) ∈ places start blocks) : b ∈ blocks := by
  induction blocks generalizing start with
  | nil => contradiction
  | cons head rest ih =>
    rcases List.mem_cons.mp placed with same | later
    · cases same
      exact List.mem_cons_self
    · exact List.mem_cons_of_mem head (ih later)

/-- A placed block splits the others into those below and those above. -/
theorem split_of_placed {x : Nat} {blocks : List Block} (placed : (x,b) ∈ places start blocks) :
    ∃ before after, blocks = before ++ b :: after ∧ x = start + total before := by
  induction blocks generalizing start with
  | nil => contradiction
  | cons head rest ih =>
    rcases List.mem_cons.mp placed with same | later
    · cases same
      exact ⟨[],rest,rfl,rfl⟩
    · obtain ⟨before,after,rfl,rfl⟩ := ih later
      exact ⟨head :: before,after,rfl,by rw [total_cons,Nat.add_assoc]⟩

theorem placed_split (start : Nat) (before after : List Block) (b : Block) :
    (start + total before,b) ∈ places start (before ++ b :: after) := by
  rw [places_append]
  exact List.mem_append_right _ List.mem_cons_self

/-- Two placed blocks are the same or apart. -/
theorem places_apart {x y : Nat} {c : Block} {blocks : List Block} (placed : (x,b) ∈ places start blocks)
    (other : (y,c) ∈ places start blocks) : (x = y ∧ b = c) ∨ x + b.len ≤ y ∨ y + c.len ≤ x := by
  induction blocks generalizing start with
  | nil => contradiction
  | cons head rest ih =>
    rcases List.mem_cons.mp placed with same | later <;> rcases List.mem_cons.mp other with too | behind
    · cases same
      cases too
      exact Or.inl ⟨rfl,rfl⟩
    · cases same
      exact Or.inr (Or.inl (places_bounds behind).1)
    · cases too
      exact Or.inr (Or.inr (places_bounds later).1)
    · exact ih later behind

theorem firstFree_used (used : ∀ b ∈ first, b.used = true) :
    firstFree start (first ++ second) = firstFree (start + total first) second := by
  induction first generalizing start with
  | nil => rfl
  | cons b rest ih =>
    rw [List.cons_append,firstFree,if_pos (used b List.mem_cons_self),ih fun c later => used c (List.mem_cons_of_mem b later),
      total_cons,Nat.add_assoc]

/-- What comes behind a free block does not matter for the first one. -/
theorem firstFree_found (found : ∃ b ∈ first, b.used = false) (second other : List Block) :
    firstFree start (first ++ second) = firstFree start (first ++ other) := by
  induction first generalizing start with
  | nil => simp at found
  | cons b rest ih =>
    simp only [List.cons_append,firstFree]
    cases used : b.used with
    | false => rfl
    | true =>
      obtain ⟨c,member,free⟩ := found
      have later : c ∈ rest := (List.mem_cons.mp member).resolve_left fun same => by simp [← same,free] at used
      simp only [if_true]
      exact ih ⟨c,later,free⟩

theorem firstFree_lt (found : ∃ b ∈ first, b.used = false) (positive : ∀ b ∈ first, 0 < b.len) (second : List Block) :
    firstFree start (first ++ second) < start + total first := by
  induction first generalizing start with
  | nil => simp at found
  | cons b rest ih =>
    have some_ := positive b List.mem_cons_self
    rw [List.cons_append,firstFree,total_cons]
    cases used : b.used with
    | false =>
      rw [if_neg Bool.false_ne_true]
      omega
    | true =>
      obtain ⟨c,member,free⟩ := found
      have later : c ∈ rest := (List.mem_cons.mp member).resolve_left fun same => by simp [← same,free] at used
      have below : firstFree (start + b.len) (rest ++ second) < start + b.len + total rest :=
        ih ⟨c,later,free⟩ fun d among => positive d (List.mem_cons_of_mem b among)
      rw [if_pos rfl]
      omega

theorem firstFree_le (free : b.used = false) : firstFree start (first ++ b :: second) ≤ start + total first := by
  induction first generalizing start with
  | nil => rw [List.nil_append,firstFree,free,if_neg Bool.false_ne_true,total_nil,Nat.add_zero]
  | cons c rest ih =>
    rw [List.cons_append,firstFree,total_cons]
    split_ifs
    · exact ih.trans_eq (Nat.add_assoc start c.len (total rest))
    · exact Nat.le_add_right start _

/-- It does not matter how long a free block is. -/
theorem firstFree_free {c : Block} {other : List Block} (free : b.used = false) (also : c.used = false) :
    firstFree start (first ++ b :: second) = firstFree start (first ++ c :: other) := by
  induction first generalizing start with
  | nil => simp only [List.nil_append,firstFree,free,also,Bool.false_eq_true,if_false]
  | cons d rest ih => simp only [List.cons_append,firstFree,ih]

theorem firstFree_ge (start : Nat) (blocks : List Block) : start ≤ firstFree start blocks := by
  induction blocks generalizing start with
  | nil => exact le_refl start
  | cons b rest ih =>
    rw [firstFree]
    split_ifs
    · exact (Nat.le_add_right start b.len).trans (ih _)
    · exact le_refl start

/-- What comes first decides where the first free block begins, or leaves it to the rest. -/
theorem firstFree_either (first rest other : List Block) (positive : ∀ b ∈ first, 0 < b.len) :
    (firstFree 0 (first ++ rest) = firstFree (total first) rest ∧ firstFree 0 (first ++ other) = firstFree (total first) other) ∨
      (firstFree 0 (first ++ rest) < total first ∧ firstFree 0 (first ++ other) = firstFree 0 (first ++ rest)) := by
  by_cases all : ∀ b ∈ first, b.used = true
  · refine Or.inl ⟨?_,?_⟩ <;> rw [firstFree_used all,Nat.zero_add]
  · have found : ∃ b ∈ first, b.used = false := by simpa using all
    have lower : firstFree 0 (first ++ rest) < 0 + total first := firstFree_lt found positive rest
    rw [Nat.zero_add] at lower
    exact Or.inr ⟨lower,firstFree_found found other rest⟩

theorem firstFree_split (start : Nat) (blocks : List Block) :
    ∃ before after, blocks = before ++ after ∧ (∀ b ∈ before, b.used = true) ∧
      firstFree start blocks = start + total before := by
  induction blocks generalizing start with
  | nil => exact ⟨[],[],rfl,nofun,rfl⟩
  | cons b rest ih =>
    rw [firstFree]
    cases used : b.used with
    | false => exact ⟨[],b :: rest,rfl,nofun,rfl⟩
    | true =>
      obtain ⟨before,after,rfl,all,same⟩ := ih (start + b.len)
      refine ⟨b :: before,after,rfl,?_,?_⟩
      · intro c member
        rcases List.mem_cons.mp member with rfl | later
        · exact used
        · exact all c later
      · rw [if_pos rfl,same,total_cons,Nat.add_assoc]

end Totals

/-- A block of this length begins here and is used. -/
def Occupied (blocks : List Block) (x len : Nat) : Prop := (x,(⟨len,true⟩ : Block)) ∈ places 0 blocks

theorem occupied_of_placed {blocks : List Block} {b : Block} {x : Nat} (placed : (x,b) ∈ places 0 blocks) (used : b.used = true) :
    Occupied blocks x b.len := by
  cases b
  cases used
  exact placed

section Exchange
variable {before mid other after frees more : List Block} {b c : Block} {start x y len : Nat}

theorem unplaced (free : ∀ b ∈ mid, b.used = false) : (x,(⟨len,true⟩ : Block)) ∉ places start mid := by
  intro placed
  have same := free _ (mem_of_placed placed)
  contradiction

/-- Free blocks make room for free ones. -/
theorem occupied_free (mid other : List Block) (same : total other = total mid) (free : ∀ b ∈ mid, b.used = false)
    (also : ∀ b ∈ other, b.used = false) :
    Occupied (before ++ (other ++ after)) x len ↔ Occupied (before ++ (mid ++ after)) x len := by
  simp only [Occupied,places_append,List.mem_append,unplaced free,unplaced also,same]

/-- A block and the free ones behind it make room for another such block. -/
theorem occupied_head (frees more : List Block) (same : c.len + total more = b.len + total frees) (free : ∀ b ∈ frees, b.used = false)
    (also : ∀ b ∈ more, b.used = false) (positive : ∀ d ∈ before ++ (b :: frees ++ after), 0 < d.len) :
    Occupied (before ++ (c :: more ++ after)) y len ↔
      if y = total before then c.used = true ∧ c.len = len else Occupied (before ++ (b :: frees ++ after)) y len := by
  have sums : total (c :: more) = total (b :: frees) := same
  have some_ := positive b (by simp)
  simp only [Occupied,places_append,places,List.mem_append,List.mem_cons,unplaced free,unplaced also,Prod.mk.injEq,sums,or_false,
    Nat.zero_add]
  split_ifs with here
  · subst here
    have below : (total before,(⟨len,true⟩ : Block)) ∉ places 0 before := by
      intro placed
      have bounds := places_bounds placed
      have wide := positive _ (List.mem_append_left _ (mem_of_placed placed))
      dsimp only at bounds wide
      omega
    have above : (total before,(⟨len,true⟩ : Block)) ∉ places (total before + total (b :: frees)) after := by
      intro placed
      have bounds := places_bounds placed
      rw [total_cons] at bounds
      omega
    simp only [below,above,false_or,or_false,true_and]
    constructor
    · rintro rfl
      exact ⟨rfl,rfl⟩
    · rintro ⟨used,rfl⟩
      exact congrArg (Block.mk c.len) used.symm
  · simp only [here,false_and,false_or]

end Exchange

section Holes
variable {start : Nat} {blocks : List Block}

/-- A range that meets no used block lies within a free one. -/
theorem hole_within (separated : Separated blocks) {x width : Nat} (some_ : 0 < width) (first : start ≤ x)
    (last : x + width ≤ start + total blocks)
    (clear : ∀ y b, (y,b) ∈ places start blocks → b.used = true → x + width ≤ y ∨ y + b.len ≤ x) :
    ∃ y b, (y,b) ∈ places start blocks ∧ b.used = false ∧ y ≤ x ∧ x + width ≤ y + b.len := by
  induction blocks generalizing start with
  | nil =>
    rw [total_nil] at last
    omega
  | cons b rest ih =>
    rw [total_cons] at last
    by_cases beyond : start + b.len ≤ x
    · obtain ⟨y,c,placed,found⟩ := ih separated.tail beyond (by omega) fun y c later => clear y c (List.mem_cons_of_mem _ later)
      exact ⟨y,c,List.mem_cons_of_mem _ placed,found⟩
    · have here := clear start b List.mem_cons_self
      have free : b.used = false := by
        by_contra used
        have apart := here (Bool.not_eq_false _ ▸ used)
        omega
      refine ⟨start,b,List.mem_cons_self,free,first,?_⟩
      by_contra across
      cases rest with
      | nil =>
        rw [total_nil] at last
        omega
      | cons c more =>
        have used : c.used = true := (List.isChain_cons_cons.mp separated).1.resolve_left (by simp [free])
        have apart := clear (start + b.len) c (List.mem_cons_of_mem _ List.mem_cons_self) used
        omega

theorem separated_used {before after : List Block} {b : Block} (used : b.used = true) :
    Separated (before ++ b :: after) ↔ Separated before ∧ Separated after := by
  unfold Separated
  rw [List.isChain_append,List.isChain_cons]
  constructor
  · exact fun both => ⟨both.1,both.2.1.2⟩
  · exact fun both => ⟨both.1,⟨fun _ _ => Or.inl used,both.2⟩,fun _ _ c head => Or.inr (by
      cases Option.some.inj head
      exact used)⟩

theorem separated_free {before after : List Block} {b : Block} (free : b.used = false) :
    Separated (before ++ b :: after) ↔ Separated before ∧ Separated after ∧ (∀ c ∈ before.getLast?, c.used = true) ∧
      ∀ c ∈ after.head?, c.used = true := by
  unfold Separated
  rw [List.isChain_append,List.isChain_cons]
  constructor
  · rintro ⟨front,⟨next,back⟩,last⟩
    exact ⟨front,back,fun c member => (last c member b rfl).resolve_right (by simp [free]),
      fun c member => (next c member).resolve_left (by simp [free])⟩
  · rintro ⟨front,back,last,next⟩
    exact ⟨front,⟨fun c member => Or.inr (next c member),back⟩,fun c member _ _ => Or.inl (last c member)⟩

/-- A row without used blocks is one free block, or none. -/
theorem single_of_unused (separated : Separated blocks) (unused : ∀ x len, ¬ Occupied blocks x len) :
    blocks = [] ∨ ∃ len, blocks = [⟨len,false⟩] := by
  have free : ∀ b ∈ blocks, b.used = false := by
    intro b member
    obtain ⟨before,after,rfl⟩ := List.append_of_mem member
    by_contra used
    exact unused _ b.len (occupied_of_placed (placed_split 0 before after b) (Bool.not_eq_false b.used ▸ used))
  match blocks with
  | [] => exact Or.inl rfl
  | [b] => exact Or.inr ⟨b.len,congrArg (fun used => [Block.mk b.len used]) (free b List.mem_cons_self)⟩
  | b :: c :: rest =>
    have either := (List.isChain_cons_cons.mp separated).1
    rw [free b (by simp),free c (by simp)] at either
    simp at either

theorem length_le_total (positive : ∀ b ∈ blocks, 0 < b.len) : blocks.length ≤ total blocks := by
  induction blocks with
  | nil => exact le_refl 0
  | cons b rest ih =>
    have some_ := positive b List.mem_cons_self
    have more := ih fun c later => positive c (List.mem_cons_of_mem b later)
    rw [List.length_cons,total_cons]
    omega

theorem dvd_total {k : Nat} (each : ∀ b ∈ blocks, k ∣ b.len) : k ∣ total blocks := by
  induction blocks with
  | nil => exact Nat.dvd_zero k
  | cons b rest ih => exact Nat.dvd_add (each b List.mem_cons_self) (ih fun c later => each c (List.mem_cons_of_mem b later))

theorem separated_cut {before after : List Block} {first second : Nat} (front : Separated before) (back : Separated after)
    (next : ∀ c ∈ after.head?, c.used = true) : Separated (before ++ ([⟨first,true⟩,⟨second,false⟩] ++ after)) := by
  have behind : Separated ([] ++ ⟨second,false⟩ :: after) := (separated_free rfl).mpr ⟨List.isChain_nil,back,nofun,next⟩
  exact (separated_used rfl).mpr ⟨front,behind⟩

end Holes

end OpenPlc.Tiling

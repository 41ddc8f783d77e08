import Mathlib.Data.List.Infix

/-! A byte stream between a producer and a consumer: what was accepted, what was
delivered and what is still under way. The ledger is a field, so no operation on
it can lose, duplicate or reorder an item. -/
namespace OpenPlc

structure Fifo (α : Type*) where
  accepted : List α
  delivered : List α
  pending : List α
  ledger : delivered ++ pending = accepted

namespace Fifo

variable {α : Type*}

def empty : Fifo α := ⟨[],[],[],rfl⟩

def push (fifo : Fifo α) (items : List α) : Fifo α :=
  ⟨fifo.accepted ++ items,fifo.delivered,fifo.pending ++ items,by rw [← fifo.ledger,List.append_assoc]⟩

def pop (fifo : Fifo α) (count : Nat) : Fifo α :=
  ⟨fifo.accepted,fifo.delivered ++ fifo.pending.take count,fifo.pending.drop count,by
    rw [List.append_assoc,List.take_append_drop,fifo.ledger]⟩

@[simp] theorem push_accepted (fifo : Fifo α) (items : List α) :
    (fifo.push items).accepted = fifo.accepted ++ items := rfl

@[simp] theorem push_delivered (fifo : Fifo α) (items : List α) :
    (fifo.push items).delivered = fifo.delivered := rfl

@[simp] theorem push_pending (fifo : Fifo α) (items : List α) :
    (fifo.push items).pending = fifo.pending ++ items := rfl

@[simp] theorem pop_accepted (fifo : Fifo α) (count : Nat) : (fifo.pop count).accepted = fifo.accepted := rfl

@[simp] theorem pop_delivered (fifo : Fifo α) (count : Nat) :
    (fifo.pop count).delivered = fifo.delivered ++ fifo.pending.take count := rfl

@[simp] theorem pop_pending (fifo : Fifo α) (count : Nat) :
    (fifo.pop count).pending = fifo.pending.drop count := rfl

theorem delivered_le (fifo : Fifo α) : fifo.delivered <+: fifo.accepted :=
  ⟨fifo.pending,fifo.ledger⟩

theorem drained (fifo : Fifo α) (idle : fifo.pending = []) : fifo.delivered = fifo.accepted := by
  rw [← fifo.ledger,idle,List.append_nil]

end Fifo
end OpenPlc

/- module: RustExperiments/Lib/Channel
   digest: Bounded first-in first-out channels, and the relay that passes their content on. -/

import Mathlib.Data.List.Basic
import Mathlib.Data.Option.Basic

set_option autoImplicit false
set_option relaxedAutoImplicit false

namespace RustExperiments.Lib

universe u

/-- What waits in a channel that has room for `capacity` values, the oldest in front: as documented
of tokio's `mpsc::channel`, a buffer of a fixed size whose values are received in the order of
sending. -/
structure Channel (α : Type u) (capacity : ℕ) where
  queue : List α
  bounded : queue.length ≤ capacity
  deriving DecidableEq

namespace Channel

variable {α : Type u} {capacity : ℕ}

def empty (α : Type u) (capacity : ℕ) : Channel α capacity := ⟨[], Nat.zero_le capacity⟩

/-- `Sender::send` waits until there is capacity. -/
def send (c : Channel α capacity) (a : α) : Option (Channel α capacity) :=
  if h : c.queue.length < capacity then
    some ⟨c.queue ++ [a], by rw [List.length_append]; exact h⟩
  else none

/-- `Receiver::recv` waits while the channel is empty; the value that it takes frees its place. -/
def recv : Channel α capacity → Option (α × Channel α capacity)
  | ⟨[], _⟩ => none
  | ⟨a :: queue, h⟩ => some (a, ⟨queue, Nat.le_of_succ_le h⟩)

theorem send_eq_some {c c' : Channel α capacity} {a : α} (h : c.send a = some c') :
    c'.queue = c.queue ++ [a] := by
  rw [send] at h
  split_ifs at h
  cases h
  rfl

theorem send_isSome (c : Channel α capacity) (a : α) :
    (c.send a).isSome ↔ c.queue.length < capacity := by
  rw [send]
  split_ifs with h
  · exact iff_of_true rfl h
  · exact iff_of_false (by simp) h

theorem recv_eq_some {c c' : Channel α capacity} {a : α} (h : c.recv = some (a, c')) :
    c.queue = a :: c'.queue := by
  obtain ⟨_ | ⟨b, queue⟩, hbounded⟩ := c
  · cases h
  · cases h
    rfl

theorem recv_isSome (c : Channel α capacity) : c.recv.isSome ↔ c.queue ≠ [] := by
  obtain ⟨_ | ⟨b, queue⟩, hbounded⟩ := c
  · exact iff_of_false (by simp [recv]) (by simp)
  · exact iff_of_true rfl (by simp)

end Channel

/-- A channel with the task that receives from it and passes each value on before the next one. -/
structure Relay (α : Type u) (capacity : ℕ) where
  channel : Channel α capacity
  /-- the value that has been received and is being passed on -/
  hand : Option α
  /-- the values that have been passed on -/
  passed : List α
  deriving DecidableEq

namespace Relay

variable {α : Type u} {capacity : ℕ}

def new (α : Type u) (capacity : ℕ) : Relay α capacity := ⟨.empty α capacity, none, []⟩

def offer (r : Relay α capacity) (a : α) : Option (Relay α capacity) :=
  (r.channel.send a).map fun channel => { r with channel := channel }

def receive (r : Relay α capacity) : Option (Relay α capacity) :=
  match r.hand with
  | some _ => none
  | none => r.channel.recv.map fun (a, channel) => { r with channel := channel, hand := some a }

def pass (r : Relay α capacity) : Option (Relay α capacity) :=
  r.hand.map fun a => { r with hand := none, passed := r.passed ++ [a] }

def Idle (r : Relay α capacity) : Prop := r.hand = none ∧ r.channel.queue = []

instance (r : Relay α capacity) [DecidableEq α] : Decidable r.Idle :=
  inferInstanceAs (Decidable (_ ∧ _))

def content (r : Relay α capacity) : List α := r.passed ++ r.hand.toList ++ r.channel.queue

@[simp] theorem content_new : (new α capacity).content = [] := rfl

theorem content_idle {r : Relay α capacity} (h : r.Idle) : r.content = r.passed := by
  simp [content, h.1, h.2]

theorem content_offer {r r' : Relay α capacity} {a : α} (h : r.offer a = some r') :
    r'.content = r.content ++ [a] := by
  obtain ⟨channel, hsend, rfl⟩ := Option.map_eq_some_iff.mp h
  simp only [content, Channel.send_eq_some hsend, List.append_assoc]

theorem content_receive {r r' : Relay α capacity} (h : r.receive = some r') :
    r'.content = r.content := by
  rw [receive] at h
  split at h
  · cases h
  · rename_i hhand
    obtain ⟨⟨a, channel⟩, hrecv, rfl⟩ := Option.map_eq_some_iff.mp h
    simp [content, hhand, Channel.recv_eq_some hrecv]

theorem content_pass {r r' : Relay α capacity} (h : r.pass = some r') :
    r'.content = r.content := by
  obtain ⟨a, hhand, rfl⟩ := Option.map_eq_some_iff.mp h
  simp [content, hhand]

theorem offer_isSome (r : Relay α capacity) (a : α) :
    (r.offer a).isSome ↔ r.channel.queue.length < capacity := by
  rw [offer, Option.isSome_map, Channel.send_isSome]

theorem receive_busy {r : Relay α capacity} (h : r.hand ≠ none) : r.receive = none := by
  obtain ⟨a, hhand⟩ := Option.ne_none_iff_exists'.mp h
  rw [receive, hhand]

theorem room_of_receive {r r' : Relay α capacity} (h : r.receive = some r') :
    r'.channel.queue.length < capacity := by
  rw [receive] at h
  split at h
  · cases h
  · obtain ⟨⟨a, channel⟩, hrecv, rfl⟩ := Option.map_eq_some_iff.mp h
    have hqueue := Channel.recv_eq_some hrecv
    have hbounded := r.channel.bounded
    rw [hqueue, List.length_cons] at hbounded
    exact hbounded

theorem receive_isSome {r : Relay α capacity} (hand : r.hand = none)
    (waiting : r.channel.queue ≠ []) : r.receive.isSome := by
  simp only [receive, hand, Option.isSome_map]
  exact (Channel.recv_isSome _).mpr waiting

theorem room_soon (r : Relay α capacity) (positive : 0 < capacity) :
    r.channel.queue.length < capacity ∨
      (∃ r₁, r.receive = some r₁ ∧ r₁.channel.queue.length < capacity) ∨
      ∃ r₁ r₂, r.pass = some r₁ ∧ r₁.receive = some r₂ ∧ r₂.channel.queue.length < capacity := by
  by_cases hroom : r.channel.queue.length < capacity
  · exact Or.inl hroom
  right
  have hqueue : r.channel.queue ≠ [] := fun hempty => hroom (by rw [hempty]; exact positive)
  cases hhand : r.hand with
  | none =>
    obtain ⟨r₁, hreceive⟩ := Option.isSome_iff_exists.mp (receive_isSome hhand hqueue)
    exact Or.inl ⟨r₁, hreceive, room_of_receive hreceive⟩
  | some a =>
    have hpass : r.pass = some { r with hand := none, passed := r.passed ++ [a] } := by
      simp [pass, hhand]
    obtain ⟨r₂, hreceive⟩ := Option.isSome_iff_exists.mp (receive_isSome
      (r := { r with hand := none, passed := r.passed ++ [a] }) rfl hqueue)
    exact Or.inr ⟨_, r₂, hpass, hreceive, room_of_receive hreceive⟩

end Relay

end RustExperiments.Lib

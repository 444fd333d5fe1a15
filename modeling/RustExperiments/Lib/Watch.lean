/- module: RustExperiments/Lib/Watch
   digest: A cell that many receivers watch: which values they read, in which order, how often. -/

import Mathlib.Data.List.Count
import Mathlib.Data.List.Pairwise

set_option autoImplicit false
set_option relaxedAutoImplicit false

namespace RustExperiments.Lib

universe u

/-- The last value that was sent, and how many were. As documented of tokio's `watch`, only the last
value is retained, and receivers track by a version what they have seen. -/
structure Watch (α : Type u) where
  value : α
  version : ℕ
  deriving DecidableEq, Repr

namespace Watch

variable {α : Type u}

/-- `Sender::subscribe`: the value that is there when a receiver is created counts as seen. -/
def subscribe (w : Watch α) : ℕ := w.version

/-- `Sender::send` fails without receivers, and then the value is not stored. -/
def send (w : Watch α) (receivers : ℕ) (a : α) : Watch α :=
  if receivers = 0 then w else ⟨a, w.version + 1⟩

/-- `Receiver::changed` returns at once if the newest value has not been seen, else it waits for one;
it marks the newest as seen. `borrow` afterwards reads whatever is there and marks nothing. -/
def changed (w : Watch α) (seen : ℕ) : Option ℕ :=
  if w.version = seen then none else some w.version

theorem changed_eq_some {w : Watch α} {seen now : ℕ} (h : w.changed seen = some now) :
    now = w.version ∧ w.version ≠ seen := by
  rw [changed] at h
  split_ifs at h with hsame
  cases h
  exact ⟨rfl, hsame⟩

/-- The values of all versions up to the present one. -/
structure Told (w : Watch α) (history : List α) : Prop where
  length : history.length = w.version + 1
  last : history[w.version]? = some w.value

theorem Told.send {w : Watch α} {history : List α} (h : w.Told history) {receivers : ℕ}
    (some' : receivers ≠ 0) (a : α) : (w.send receivers a).Told (history ++ [a]) := by
  rw [Watch.send, if_neg some']
  refine ⟨by rw [List.length_append, h.length]; rfl, ?_⟩
  show (history ++ [a])[w.version + 1]? = some a
  rw [← h.length, List.getElem?_concat_length]

end Watch

/-- A receiver was told of the version `seen` and then read the value of the version `got`. -/
structure Read where
  seen : ℕ
  got : ℕ
  deriving DecidableEq, Repr

/-- What a receiver that has subscribed at version `start` can have read. -/
structure Reads (start : ℕ) (reads : List Read) : Prop where
  within : ∀ r ∈ reads, start < r.seen ∧ r.seen ≤ r.got
  ordered : reads.Pairwise fun r r' => r.seen < r'.seen ∧ r.got ≤ r'.seen

namespace Reads

variable {start : ℕ} {reads : List Read}

theorem nil (start : ℕ) : Reads start [] :=
  ⟨fun _ h => absurd h List.not_mem_nil, List.Pairwise.nil⟩

theorem snoc (h : Reads start reads) {seen got : ℕ} (after : start < seen) (le : seen ≤ got)
    (earlier : ∀ r ∈ reads, r.seen < seen ∧ r.got ≤ seen) :
    Reads start (reads ++ [⟨seen, got⟩]) := by
  refine ⟨fun r hr => ?_, List.pairwise_append.mpr
    ⟨h.ordered, List.pairwise_singleton _ _, fun r hr r' hr' => ?_⟩⟩
  · rcases List.mem_append.mp hr with hold | hnew
    · exact h.within r hold
    · rw [List.mem_singleton.mp hnew]
      exact ⟨after, le⟩
  · rw [List.mem_singleton.mp hr']
    exact earlier r hr

theorem fresh (h : Reads start reads) : ∀ v ∈ reads.map Read.got, start < v := by
  intro v hv
  obtain ⟨r, hr, rfl⟩ := List.mem_map.mp hv
  exact Nat.lt_of_lt_of_le (h.within r hr).1 (h.within r hr).2

theorem sorted (h : Reads start reads) : (reads.map Read.got).Pairwise (· ≤ ·) := by
  refine List.pairwise_map.mpr (h.ordered.imp_of_mem fun _ hr' hle => ?_)
  exact Nat.le_trans hle.2 (h.within _ hr').2

/-- No receiver reads a value more than twice: the third time it would have been told of a version
beyond it. -/
theorem at_most_twice (h : Reads start reads) (v : ℕ) : (reads.map Read.got).count v ≤ 2 := by
  rw [List.count, List.countP_map, List.countP_eq_length_filter]
  have hsame : ∀ r ∈ reads.filter ((· == v) ∘ Read.got), r.got = v := fun r hr => by
    simpa using (List.mem_filter.mp hr).2
  have hordered := h.ordered.filter ((· == v) ∘ Read.got)
  rcases hfilter : reads.filter ((· == v) ∘ Read.got) with _ | ⟨a, _ | ⟨b, _ | ⟨c, rest⟩⟩⟩
  · exact Nat.zero_le 2
  · exact Nat.le_succ 1
  · exact Nat.le_refl 2
  · rw [hfilter] at hsame hordered
    simp only [List.pairwise_cons, List.mem_cons, forall_eq_or_imp] at hsame hordered
    have hmem : c ∈ reads := by
      have hin : c ∈ reads.filter ((· == v) ∘ Read.got) := by rw [hfilter]; simp
      exact (List.mem_filter.mp hin).1
    have hle := (h.within c hmem).2
    have hab := hordered.1.1.2
    have hbc := hordered.2.1.1.1
    omega

end Reads

end RustExperiments.Lib

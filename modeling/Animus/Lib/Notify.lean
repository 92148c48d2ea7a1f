import Mathlib.Data.List.Basic
import Mathlib.Data.List.Nodup

/-!
# Notifiers

A notification wakes the first waiter, or is kept as a permit for whoever polls
next. Permits do not add up.

## Main definitions

- `Notify`: a permit, the waiters in order, and those notified and not polled since
- `Notifier`, `Notifier.Laws`: anything that is seen as that, and what is documented of it
- `Notify.merges`: a notification finds the permit taken
- `Notify.Sound`: the invariant

## Main results

- `Notify.pending_notifyOne`, `Notify.pending_poll`, `Notify.pending_drop`: no notification is lost
  but to a permit that is there
- `Notifier.Laws.seen_notifyOne`, `seen_poll`, `seen_drop`: a notifier is seen to do the same
-/

/-- Who waits for a notification, and what has been signalled. -/
structure Notify where
  permit : Bool := false
  /-- First come first. -/
  waiters : List ℕ := []
  /-- Notified, and not polled since. -/
  notified : List ℕ := []

/-- What those that signal and those that wait do to a notifier, and what is seen of it. -/
structure Notifier (N : Type) where
  new : N
  notifyOne : N → N
  /-- A waiter polls; is it served? -/
  poll : N → ℕ → Bool × N
  /-- A waiter goes away. -/
  drop : N → ℕ → N
  seen : N → Notify

/-- What is documented of the operations. -/
structure Notifier.Laws {N : Type} (T : Notifier N) : Prop where
  new : T.seen T.new = ⟨false, [], []⟩
  /-- The first waiter is notified, -/
  notifyOne_wakes : ∀ {n permit w ws notified}, T.seen n = ⟨permit, w :: ws, notified⟩ →
    T.seen (T.notifyOne n) = ⟨permit, ws, w :: notified⟩
  /-- or a permit is stored, one however many there were. -/
  notifyOne_stores : ∀ {n permit notified}, T.seen n = ⟨permit, [], notified⟩ →
    T.seen (T.notifyOne n) = ⟨true, [], notified⟩
  /-- One that was notified is served, -/
  poll_notified : ∀ {n i permit ws notified}, T.seen n = ⟨permit, ws, notified⟩ → i ∈ notified →
    (T.poll n i).1 = true ∧ T.seen (T.poll n i).2 = ⟨permit, ws, notified.erase i⟩
  /-- one that waits goes on waiting, -/
  poll_waits : ∀ {n i permit ws notified}, T.seen n = ⟨permit, ws, notified⟩ → i ∉ notified →
    i ∈ ws → (T.poll n i).1 = false ∧ T.seen (T.poll n i).2 = ⟨permit, ws, notified⟩
  /-- and a newcomer takes the permit, -/
  poll_takes : ∀ {n i ws notified}, T.seen n = ⟨true, ws, notified⟩ → i ∉ notified → i ∉ ws →
    (T.poll n i).1 = true ∧ T.seen (T.poll n i).2 = ⟨false, ws, notified⟩
  /-- or waits last. -/
  poll_queues : ∀ {n i ws notified}, T.seen n = ⟨false, ws, notified⟩ → i ∉ notified → i ∉ ws →
    (T.poll n i).1 = false ∧ T.seen (T.poll n i).2 = ⟨false, ws ++ [i], notified⟩
  /-- One that was not notified gives up its place. -/
  drop_waiter : ∀ {n i permit ws notified}, T.seen n = ⟨permit, ws, notified⟩ → i ∉ notified →
    T.seen (T.drop n i) = ⟨permit, ws.erase i, notified⟩
  /-- One that was hands its notification on to the first waiter, -/
  drop_wakes : ∀ {n i permit w ws notified}, T.seen n = ⟨permit, w :: ws, notified⟩ →
    i ∈ notified → T.seen (T.drop n i) = ⟨permit, ws, w :: notified.erase i⟩
  /-- or to whoever polls next. -/
  drop_stores : ∀ {n i permit notified}, T.seen n = ⟨permit, [], notified⟩ → i ∈ notified →
    T.seen (T.drop n i) = ⟨true, [], notified.erase i⟩

namespace Notify

/-- Wake the first waiter, or leave a permit. -/
def notifyOne (n : Notify) : Notify :=
  match n.waiters with
  | [] => { n with permit := true }
  | w :: ws => { n with waiters := ws, notified := w :: n.notified }

/-- Does a notification find the permit taken? -/
def merges (n : Notify) : Bool := n.waiters.isEmpty && n.permit

/-- Is a waiter that polls served? -/
def ready (n : Notify) (i : ℕ) : Bool :=
  decide (i ∈ n.notified) || (n.permit && !decide (i ∈ n.waiters))

/-- A waiter polls: it takes its notification or the permit, or waits in the queue. -/
def poll (n : Notify) (i : ℕ) : Notify :=
  if i ∈ n.notified then { n with notified := n.notified.erase i }
  else if i ∈ n.waiters then n
  else if n.permit then { n with permit := false }
  else { n with waiters := n.waiters ++ [i] }

/-- A waiter that was notified and goes away hands its notification on. -/
def drop (n : Notify) (i : ℕ) : Notify :=
  if i ∈ n.notified then notifyOne { n with notified := n.notified.erase i }
  else { n with waiters := n.waiters.erase i }

/-- Does a waiter that goes away lose its notification to a permit that is there? -/
def dropMerges (n : Notify) (i : ℕ) : Bool := decide (i ∈ n.notified) && n.merges

/-- How many notifications have not been taken. -/
def pending (n : Notify) : ℕ := n.notified.length + n.permit.toNat

/-- Each waits once, and nobody waits beside a permit. -/
structure Sound (n : Notify) : Prop where
  waiters : n.waiters.Nodup
  notified : n.notified.Nodup
  apart : ∀ i ∈ n.notified, i ∉ n.waiters
  permit : n.permit = true → n.waiters = []

section Steps

variable {n : Notify} {i j : ℕ}

theorem sound_empty : Sound {} :=
  ⟨List.nodup_nil, List.nodup_nil, fun _ h => absurd h List.not_mem_nil, fun _ => rfl⟩

theorem Sound.notifyOne (h : n.Sound) : n.notifyOne.Sound := by
  obtain ⟨permit, waiters, notified⟩ := n
  cases waiters with
  | nil => exact ⟨List.nodup_nil, h.notified, fun _ _ => List.not_mem_nil, fun _ => rfl⟩
  | cons w ws =>
    have hfresh : w ∉ notified := fun hw => h.apart w hw (List.mem_cons_self ..)
    have hw := List.nodup_cons.mp h.waiters
    refine ⟨hw.2, List.nodup_cons.mpr ⟨hfresh, h.notified⟩, fun j hj => ?_, fun hp => ?_⟩
    · obtain rfl | hj := List.mem_cons.mp hj
      · exact hw.1
      · exact fun hmem => h.apart j hj (List.mem_cons_of_mem _ hmem)
    · cases h.permit hp

theorem Sound.erase (h : n.Sound) (i : ℕ) :
    Sound { n with notified := n.notified.erase i } where
  waiters := h.waiters
  notified := h.notified.erase i
  apart j hj := h.apart j (List.mem_of_mem_erase hj)
  permit := h.permit

theorem Sound.drop (h : n.Sound) (i : ℕ) : (n.drop i).Sound := by
  unfold Notify.drop
  split
  · exact (h.erase i).notifyOne
  · refine ⟨h.waiters.erase i, h.notified, fun j hj hmem => ?_, fun hp => ?_⟩
    · exact h.apart j hj (List.mem_of_mem_erase hmem)
    · show n.waiters.erase i = []
      rw [h.permit hp]
      rfl

theorem Sound.poll (h : n.Sound) (i : ℕ) : (n.poll i).Sound := by
  unfold Notify.poll
  split
  · exact h.erase i
  split
  · exact h
  split
  · next hn hw hp => exact ⟨h.waiters, h.notified, h.apart, fun h => by cases h⟩
  · next hn hw hp =>
    refine ⟨?_, h.notified, fun j hj hmem => ?_, fun h' => absurd h' hp⟩
    · exact List.nodup_append.mpr ⟨h.waiters, List.nodup_singleton i, fun a ha b hb heq =>
        hw (List.mem_singleton.mp hb ▸ heq ▸ ha)⟩
    · obtain hmem | hmem := List.mem_append.mp hmem
      · exact h.apart j hj hmem
      · exact hn (List.mem_singleton.mp hmem ▸ hj)

/-- A notification is pending, unless the permit was there. -/
theorem pending_notifyOne (n : Notify) :
    n.notifyOne.pending + n.merges.toNat = n.pending + 1 := by
  obtain ⟨permit, waiters, notified⟩ := n
  cases waiters with
  | nil => cases permit <;> simp [notifyOne, merges, pending]
  | cons w ws =>
    simp only [notifyOne, merges, pending, List.length_cons, List.isEmpty_cons, Bool.false_and,
      Bool.toNat_false]
    omega

/-- A poll takes one notification where it is served, and none elsewhere. -/
theorem pending_poll (n : Notify) (i : ℕ) :
    (n.poll i).pending + (n.ready i).toNat = n.pending := by
  unfold poll ready pending
  by_cases hn : i ∈ n.notified
  · rw [if_pos hn, List.length_erase_of_mem hn]
    have hpos := List.length_pos_of_mem hn
    simp only [hn, decide_true, Bool.true_or, Bool.toNat_true]
    omega
  · by_cases hw : i ∈ n.waiters
    · simp [hn, hw]
    · by_cases hp : n.permit = true
      · simp [hn, hw, hp]
      · simp [hn, hw, hp]

/-- Going away takes no notification, but one may find the permit there. -/
theorem pending_drop (n : Notify) (i : ℕ) :
    (n.drop i).pending + (n.dropMerges i).toNat = n.pending := by
  unfold drop dropMerges
  by_cases hn : i ∈ n.notified
  · rw [if_pos hn]
    have hone := pending_notifyOne { n with notified := n.notified.erase i }
    have hlen := List.length_erase_of_mem hn
    have hpos := List.length_pos_of_mem hn
    simp only [hn, decide_true, Bool.true_and]
    simp only [pending, merges] at hone ⊢
    omega
  · rw [if_neg hn]
    simp [hn, pending]

/-! ### Who is in it -/

/-- Somebody waits or was notified. -/
def Holds (n : Notify) (i : ℕ) : Prop := i ∈ n.waiters ∨ i ∈ n.notified

theorem Holds.of_notifyOne (h : n.notifyOne.Holds i) : n.Holds i := by
  obtain ⟨permit, waiters, notified⟩ := n
  cases waiters with
  | nil => exact h
  | cons w ws =>
    obtain h | h := h
    · exact .inl (List.mem_cons_of_mem _ h)
    · obtain rfl | h := List.mem_cons.mp h
      · exact .inl (List.mem_cons_self ..)
      · exact .inr h

theorem Holds.of_drop (hn : n.Sound) (h : (n.drop i).Holds j) : n.Holds j ∧ j ≠ i := by
  unfold Notify.drop at h
  split at h
  · next hi =>
    have hbefore := h.of_notifyOne
    refine ⟨hbefore.imp id List.mem_of_mem_erase, ?_⟩
    rintro rfl
    obtain hw | hm := hbefore
    · exact hn.apart j hi hw
    · exact (List.Nodup.not_mem_erase hn.notified) hm
  · next hi =>
    obtain hw | hm := h
    · refine ⟨.inl (List.mem_of_mem_erase hw), ?_⟩
      rintro rfl
      exact (List.Nodup.not_mem_erase hn.waiters) hw
    · refine ⟨.inr hm, ?_⟩
      rintro rfl
      exact hi hm

theorem Holds.of_poll (h : (n.poll i).Holds j) : n.Holds j ∨ j = i := by
  unfold Notify.poll at h
  split at h
  · exact .inl (h.imp id List.mem_of_mem_erase)
  split at h
  · exact .inl h
  split at h
  · exact .inl h
  · obtain hw | hm := h
    · obtain hw | hw := List.mem_append.mp hw
      · exact .inl (.inl hw)
      · exact .inr (List.mem_singleton.mp hw)
    · exact .inl (.inr hm)

/-- A waiter that was served is not in it any more. -/
theorem Holds.of_ready (hn : n.Sound) (hready : n.ready i = true) (h : (n.poll i).Holds j) :
    n.Holds j ∧ j ≠ i := by
  unfold Notify.poll at h
  unfold Notify.ready at hready
  by_cases hi : i ∈ n.notified
  · rw [if_pos hi] at h
    refine ⟨h.imp id List.mem_of_mem_erase, ?_⟩
    rintro rfl
    obtain hw | hm := h
    · exact hn.apart j hi hw
    · exact (List.Nodup.not_mem_erase hn.notified) hm
  · by_cases hw : i ∈ n.waiters
    · simp [hi, hw] at hready
    · have hp : n.permit = true := by simpa [hi, hw] using hready
      rw [if_neg hi, if_neg hw, if_pos hp] at h
      refine ⟨h, ?_⟩
      rintro rfl
      exact h.elim hw hi

end Steps

/-- The notifier that is what is seen of it. -/
def notifier : Notifier Notify where
  new := {}
  notifyOne := notifyOne
  poll n i := (n.ready i, n.poll i)
  drop := drop
  seen n := n

end Notify

namespace Notifier.Laws

variable {N : Type} {T : Notifier N}

/-- A notifier is seen to notify, -/
theorem seen_notifyOne (hT : T.Laws) (n : N) : T.seen (T.notifyOne n) = (T.seen n).notifyOne := by
  cases hn : T.seen n with
  | mk permit waiters notified =>
    cases waiters with
    | nil => exact hT.notifyOne_stores hn
    | cons w ws => exact hT.notifyOne_wakes hn

/-- to serve or to queue whoever polls, -/
theorem seen_poll (hT : T.Laws) (n : N) (i : ℕ) :
    (T.poll n i).1 = (T.seen n).ready i ∧ T.seen (T.poll n i).2 = (T.seen n).poll i := by
  cases hn : T.seen n with
  | mk permit waiters notified =>
    by_cases hi : i ∈ notified
    · simpa [Notify.ready, Notify.poll, hi] using hT.poll_notified hn hi
    by_cases hw : i ∈ waiters
    · simpa [Notify.ready, Notify.poll, hi, hw] using hT.poll_waits hn hi hw
    cases permit with
    | true => simpa [Notify.ready, Notify.poll, hi, hw] using hT.poll_takes hn hi hw
    | false => simpa [Notify.ready, Notify.poll, hi, hw] using hT.poll_queues hn hi hw

/-- and to let whoever goes away go. -/
theorem seen_drop (hT : T.Laws) (n : N) (i : ℕ) : T.seen (T.drop n i) = (T.seen n).drop i := by
  cases hn : T.seen n with
  | mk permit waiters notified =>
    by_cases hi : i ∈ notified
    · rw [Notify.drop, if_pos hi]
      cases waiters with
      | nil => exact hT.drop_stores hn hi
      | cons w ws => exact hT.drop_wakes hn hi
    · rw [Notify.drop, if_neg hi]
      exact hT.drop_waiter hn hi

end Notifier.Laws

theorem Notify.laws : Notify.notifier.Laws where
  new := rfl
  notifyOne_wakes h := congrArg notifyOne h
  notifyOne_stores h := congrArg notifyOne h
  poll_notified h hi := by
    obtain rfl := h
    simp [notifier, ready, poll, hi]
  poll_waits h hi hw := by
    obtain rfl := h
    simp [notifier, ready, poll, hi, hw]
  poll_takes h hi hw := by
    obtain rfl := h
    simp [notifier, ready, poll, hi, hw]
  poll_queues h hi hw := by
    obtain rfl := h
    simp [notifier, ready, poll, hi, hw]
  drop_waiter h hi := by
    obtain rfl := h
    exact if_neg hi
  drop_wakes h hi := by
    obtain rfl := h
    exact if_pos hi
  drop_stores h hi := by
    obtain rfl := h
    exact if_pos hi

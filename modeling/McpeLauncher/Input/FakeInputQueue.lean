import Mathlib.Data.List.Nodup
import McpeLauncher.Lib.Runs

/-!
# The input queue

`FakeInputQueue` keeps the key events and the motion events in two deques. The game gets the address
of the event at the front of one of them and gives it back when it is done with the event; meanwhile
more events are added. `push_back` leaves the addresses of the other events as they are, and no two
events that exist have the same one.
-/

namespace McpeLauncher.Input

variable {K M : Type}

/-- An event in a deque, with its address. -/
structure Slot (E : Type) where
  address : Nat
  event : E
  deriving DecidableEq

/-- What the events hold is not looked at. -/
structure FakeInputQueue (K M : Type) where
  keyEvents : List (Slot K)
  motionEvents : List (Slot M)
  deriving DecidableEq

namespace FakeInputQueue

/-- The result with the address that `*event` is set to. -/
def getEvent (q : FakeInputQueue K M) : Int × Option Nat :=
  match q.keyEvents, q.motionEvents with
  | e :: _, _ => (0, some e.address)
  | [], e :: _ => (0, some e.address)
  | [], [] => (-1, none)

def finishEvent (q : FakeInputQueue K M) (event : Nat) : Except String (FakeInputQueue K M) :=
  if q.keyEvents.head?.map Slot.address = some event then
    .ok { q with keyEvents := q.keyEvents.tail }
  else if q.motionEvents.head?.map Slot.address = some event then
    .ok { q with motionEvents := q.motionEvents.tail }
  else .error "finishEvent: the event is not the event on the front of queue"

def addKeyEvent (q : FakeInputQueue K M) (e : Slot K) : FakeInputQueue K M :=
  { q with keyEvents := q.keyEvents ++ [e] }

def addMotionEvent (q : FakeInputQueue K M) (e : Slot M) : FakeInputQueue K M :=
  { q with motionEvents := q.motionEvents ++ [e] }

/-- The addresses that are taken. -/
def addresses (q : FakeInputQueue K M) : List Nat :=
  q.keyEvents.map Slot.address ++ q.motionEvents.map Slot.address

/-- The event at an address. -/
def at? (q : FakeInputQueue K M) (address : Nat) : Option (Slot K ⊕ Slot M) :=
  ((q.keyEvents.find? (·.address = address)).map .inl).or
    ((q.motionEvents.find? (·.address = address)).map .inr)

end FakeInputQueue

/-! ## The protocol -/

/-- The queue with the event that the game was given, what was added and what the game is done with,
and the error of a call of `finishEvent`. -/
structure QueueUse (K M : Type) where
  queue : FakeInputQueue K M
  given : Option (Slot K ⊕ Slot M)
  addedKeys : List K
  addedMotions : List M
  consumedKeys : List K
  consumedMotions : List M
  thrown : Option String
  deriving DecidableEq

/-- Events are added by anyone; the game gets an event, and finishes it before it gets another
one. -/
inductive QueueCall (K M : Type)
  | addKey (e : Slot K)
  | addMotion (e : Slot M)
  | get
  | finish

namespace QueueUse

def init : QueueUse K M := ⟨⟨[], []⟩, none, [], [], [], [], none⟩

def consume (s : QueueUse K M) (q : FakeInputQueue K M) : Slot K ⊕ Slot M → QueueUse K M
  | .inl e => { s with queue := q, given := none, consumedKeys := s.consumedKeys ++ [e.event] }
  | .inr e =>
    { s with queue := q, given := none, consumedMotions := s.consumedMotions ++ [e.event] }

def address : Slot K ⊕ Slot M → Nat
  | .inl e => e.address
  | .inr e => e.address

def step (s : QueueUse K M) : QueueCall K M → Option (QueueUse K M)
  | .addKey e =>
    if e.address ∈ s.queue.addresses then none
    else some { s with queue := s.queue.addKeyEvent e, addedKeys := s.addedKeys ++ [e.event] }
  | .addMotion e =>
    if e.address ∈ s.queue.addresses then none
    else some { s with
      queue := s.queue.addMotionEvent e
      addedMotions := s.addedMotions ++ [e.event] }
  | .get =>
    match s.given, s.queue.getEvent.2 with
    | some _, _ => none
    | none, none => some s
    | none, some event => some { s with given := s.queue.at? event }
  | .finish =>
    match s.given with
    | none => none
    | some e =>
      match s.queue.finishEvent (address e) with
      | .ok q => some (s.consume q e)
      | .error what => some { s with thrown := some what }

/-- Giving an event back removes this event, which is the first of its kind. -/
def Removes (q : FakeInputQueue K M) : Slot K ⊕ Slot M → Prop
  | .inl e => ∃ rest, q.keyEvents = e :: rest ∧
      q.finishEvent e.address = .ok { q with keyEvents := rest }
  | .inr e => ∃ rest, q.motionEvents = e :: rest ∧
      q.finishEvent e.address = .ok { q with motionEvents := rest }

/-- What was consumed and what is queued is what was added, in this order. -/
structure Faithful (s : QueueUse K M) : Prop where
  thrown : s.thrown = none
  keys : s.consumedKeys ++ s.queue.keyEvents.map Slot.event = s.addedKeys
  motions : s.consumedMotions ++ s.queue.motionEvents.map Slot.event = s.addedMotions
  given : ∀ e, s.given = some e → Removes s.queue e

/-! ## The invariant -/

/-- The event is at the front of its deque. -/
def IsFront (q : FakeInputQueue K M) : Slot K ⊕ Slot M → Prop
  | .inl e => ∃ rest, q.keyEvents = e :: rest
  | .inr e => ∃ rest, q.motionEvents = e :: rest

/-- As long as no two events have one address, the event at the front is found. -/
theorem IsFront.removes {q : FakeInputQueue K M} {e : Slot K ⊕ Slot M} (h : IsFront q e)
    (hnodup : q.addresses.Nodup) : Removes q e := by
  cases e with
  | inl e =>
    obtain ⟨rest, hrest⟩ := h
    exact ⟨rest, hrest, by simp [FakeInputQueue.finishEvent, hrest]⟩
  | inr e =>
    obtain ⟨rest, hrest⟩ := h
    refine ⟨rest, hrest, ?_⟩
    have hkey : q.keyEvents.head?.map Slot.address ≠ some e.address := by
      intro hhead
      obtain ⟨k, hk, haddress⟩ := Option.map_eq_some_iff.mp hhead
      have hmem : e.address ∈ q.keyEvents.map Slot.address :=
        haddress ▸ List.mem_map_of_mem (List.mem_of_mem_head? hk)
      have hmotion : e.address ∈ q.motionEvents.map Slot.address := by
        rw [hrest]
        exact .head _
      exact (List.nodup_append.mp hnodup).2.2 _ hmem _ hmotion rfl
    simp [FakeInputQueue.finishEvent, hkey, hrest]

/-- `getEvent` gives the address of an event at a front. -/
theorem exists_front_of_getEvent {q : FakeInputQueue K M} {event : Nat}
    (h : q.getEvent.2 = some event) : ∃ e, q.at? event = some e ∧ IsFront q e := by
  unfold FakeInputQueue.getEvent at h
  cases hkeys : q.keyEvents with
  | cons k ks =>
    rw [hkeys] at h
    cases h
    exact ⟨.inl k, by simp [FakeInputQueue.at?, hkeys], ks, hkeys⟩
  | nil =>
    cases hmotions : q.motionEvents with
    | cons m ms =>
      rw [hkeys, hmotions] at h
      cases h
      exact ⟨.inr m, by simp [FakeInputQueue.at?, hkeys, hmotions], ms, hmotions⟩
    | nil =>
      rw [hkeys, hmotions] at h
      exact nomatch h

structure Inv (s : QueueUse K M) : Prop where
  nodup : s.queue.addresses.Nodup
  thrown : s.thrown = none
  keys : s.consumedKeys ++ s.queue.keyEvents.map Slot.event = s.addedKeys
  motions : s.consumedMotions ++ s.queue.motionEvents.map Slot.event = s.addedMotions
  given : ∀ e, s.given = some e → IsFront s.queue e

theorem inv_init : Inv (init : QueueUse K M) where
  nodup := .nil
  thrown := rfl
  keys := rfl
  motions := rfl
  given _ h := nomatch h

theorem Inv.faithful {s : QueueUse K M} (h : Inv s) : Faithful s where
  thrown := h.thrown
  keys := h.keys
  motions := h.motions
  given e he := (h.given e he).removes h.nodup

variable {s : QueueUse K M}

theorem Inv.addKey (h : Inv s) {e : Slot K} (hnew : e.address ∉ s.queue.addresses) :
    Inv { s with queue := s.queue.addKeyEvent e, addedKeys := s.addedKeys ++ [e.event] } where
  nodup := by
    have hperm : (s.queue.addKeyEvent e).addresses.Perm (e.address :: s.queue.addresses) := by
      simp only [FakeInputQueue.addresses, FakeInputQueue.addKeyEvent, List.map_append,
        List.map_cons, List.map_nil, List.append_assoc, List.singleton_append]
      exact List.perm_middle
    exact hperm.nodup_iff.mpr (List.nodup_cons.mpr ⟨hnew, h.nodup⟩)
  thrown := h.thrown
  keys := by
    rw [← h.keys, FakeInputQueue.addKeyEvent, List.map_append, List.append_assoc]
    rfl
  motions := h.motions
  given g hg := by
    have hfront := h.given g hg
    cases g with
    | inl k =>
      obtain ⟨rest, hrest⟩ := hfront
      exact ⟨rest ++ [e], congrArg (· ++ [e]) hrest⟩
    | inr m => exact hfront

theorem Inv.addMotion (h : Inv s) {e : Slot M} (hnew : e.address ∉ s.queue.addresses) :
    Inv { s with
      queue := s.queue.addMotionEvent e
      addedMotions := s.addedMotions ++ [e.event] } where
  nodup := by
    have hperm : (s.queue.addMotionEvent e).addresses.Perm (e.address :: s.queue.addresses) := by
      simp only [FakeInputQueue.addresses, FakeInputQueue.addMotionEvent, List.map_append,
        List.map_cons, List.map_nil, ← List.append_assoc]
      exact List.perm_append_singleton _ _
    exact hperm.nodup_iff.mpr (List.nodup_cons.mpr ⟨hnew, h.nodup⟩)
  thrown := h.thrown
  keys := h.keys
  motions := by
    rw [← h.motions, FakeInputQueue.addMotionEvent, List.map_append, List.append_assoc]
    rfl
  given g hg := by
    have hfront := h.given g hg
    cases g with
    | inl k => exact hfront
    | inr m =>
      obtain ⟨rest, hrest⟩ := hfront
      exact ⟨rest ++ [e], congrArg (· ++ [e]) hrest⟩

/-- The event that is given back is consumed. -/
theorem Inv.finish (h : Inv s) {e : Slot K ⊕ Slot M} (hgiven : s.given = some e) :
    ∃ q, s.queue.finishEvent (address e) = .ok q ∧ Inv (s.consume q e) := by
  have hremoves := (h.given e hgiven).removes h.nodup
  cases e with
  | inl k =>
    obtain ⟨rest, hrest, hok⟩ := hremoves
    refine ⟨_, hok, ?_, h.thrown, ?_, h.motions, fun g hg => nomatch hg⟩
    · have hnodup := h.nodup
      rw [FakeInputQueue.addresses, hrest] at hnodup
      exact (List.nodup_cons.mp hnodup).2
    · show s.consumedKeys ++ [k.event] ++ rest.map Slot.event = s.addedKeys
      rw [← h.keys, hrest, List.append_assoc]
      rfl
  | inr m =>
    obtain ⟨rest, hrest, hok⟩ := hremoves
    refine ⟨_, hok, ?_, h.thrown, h.keys, ?_, fun g hg => nomatch hg⟩
    · have hnodup := h.nodup
      rw [FakeInputQueue.addresses, hrest] at hnodup
      exact (List.nodup_middle.mp hnodup).of_cons
    · show s.consumedMotions ++ [m.event] ++ rest.map Slot.event = s.addedMotions
      rw [← h.motions, hrest, List.append_assoc]
      rfl

theorem Inv.step (h : Inv s) {c : QueueCall K M} {s' : QueueUse K M} (hs : s.step c = some s') :
    Inv s' := by
  cases c with
  | addKey e =>
    simp only [QueueUse.step] at hs
    split at hs
    next => exact nomatch hs
    next hnew =>
      cases hs
      exact h.addKey hnew
  | addMotion e =>
    simp only [QueueUse.step] at hs
    split at hs
    next => exact nomatch hs
    next hnew =>
      cases hs
      exact h.addMotion hnew
  | get =>
    simp only [QueueUse.step] at hs
    split at hs
    next => exact nomatch hs
    next =>
      cases hs
      exact h
    next event _ hget =>
      cases hs
      obtain ⟨e, hat, hfront⟩ := exists_front_of_getEvent hget
      refine ⟨h.nodup, h.thrown, h.keys, h.motions, fun g hg => ?_⟩
      exact Option.some.inj (hat.symm.trans hg) ▸ hfront
  | finish =>
    simp only [QueueUse.step] at hs
    split at hs
    next => exact nomatch hs
    next e hgiven =>
      obtain ⟨q, hok, hinv⟩ := h.finish hgiven
      rw [hok] at hs
      cases hs
      exact hinv

/-- **The queue is faithful** in every interleaving of the game with those that add events. -/
theorem faithful_run (as : List (QueueCall K M)) (h : Runs.run step init as = some s) :
    Faithful s :=
  (Runs.inv_of_run (fun _ _ _ hinv hs => hinv.step hs) inv_init h).faithful

/-- A key is pressed while the game handles a motion event. -/
theorem faithful_keyDuringMotion :
    Faithful (K := Nat) (M := Nat) ⟨⟨[⟨2, 20⟩], []⟩, none, [20], [10], [], [10], none⟩ :=
  faithful_run [.addMotion ⟨1, 10⟩, .get, .addKey ⟨2, 20⟩, .finish] rfl

end QueueUse

end McpeLauncher.Input

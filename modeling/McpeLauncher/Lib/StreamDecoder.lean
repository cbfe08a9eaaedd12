import Mathlib.Data.List.Basic
import Mathlib.Data.List.Infix

/-!
# Decoders of streams

A format is given by a machine that reads one symbol at a time, and `decode` is what it makes of a
list of symbols. `Inflate` is a decoder of the format as a library offers it: it is called with a
piece of the input and with room for some output, it keeps what does not fit, and its caller calls
again.
-/

namespace StreamDecoder

/-- What a symbol leads to: more are expected, the encoded value is complete, or no value starts
like this. -/
inductive Step (τ β : Type)
  | next (t : τ) (out : List β)
  | finish (out : List β)
  | fail (out : List β)

structure Machine (α β : Type) where
  τ : Type
  start : τ
  step : τ → α → Step τ β

inductive Status
  | more
  | done
  | corrupt
  deriving DecidableEq

/-- The output for a list of symbols, how many of them were read, and how the reading ended. -/
structure Decoded (β : Type) where
  out : List β
  used : Nat
  status : Status
  deriving DecidableEq

variable {α β : Type}

/-- A symbol and its output come before the others. -/
def Decoded.after (out : List β) (d : Decoded β) : Decoded β where
  out := out ++ d.out
  used := d.used + 1
  status := d.status

namespace Machine

variable (M : Machine α β)

def decodeFrom : M.τ → List α → Decoded β
  | _, [] => ⟨[], 0, .more⟩
  | t, a :: as =>
    match M.step t a with
    | .next t' out => (decodeFrom t' as).after out
    | .finish out => ⟨out, 1, .done⟩
    | .fail out => ⟨out, 1, .corrupt⟩

def decode (as : List α) : Decoded β := M.decodeFrom M.start as

/-- The symbols are one encoded value, and nothing follows it. -/
def Member (as : List α) (out : List β) : Prop := M.decode as = ⟨out, as.length, .done⟩

variable {M} {t : M.τ} {as bs : List α} {out : List β}

theorem decodeFrom_used_le (t : M.τ) (as : List α) : (M.decodeFrom t as).used ≤ as.length := by
  induction as generalizing t with
  | nil => exact Nat.le_refl 0
  | cons a as ih =>
    rw [decodeFrom]
    cases M.step t a with
    | next t' out => exact Nat.succ_le_succ (ih t')
    | finish out => exact Nat.succ_le_succ (Nat.zero_le _)
    | fail out => exact Nat.succ_le_succ (Nat.zero_le _)

theorem decodeFrom_used_of_more (h : (M.decodeFrom t as).status = .more) :
    (M.decodeFrom t as).used = as.length := by
  induction as generalizing t with
  | nil => rfl
  | cons a as ih =>
    rw [decodeFrom] at h ⊢
    cases hstep : M.step t a with
    | next t' out =>
      rw [hstep] at h
      exact congrArg Nat.succ (ih h)
    | finish out =>
      rw [hstep] at h
      exact nomatch h
    | fail out =>
      rw [hstep] at h
      exact nomatch h

/-- What is read stays read when more follows. -/
theorem decodeFrom_append (t : M.τ) (as bs : List α) :
    (M.decodeFrom t as).out <+: (M.decodeFrom t (as ++ bs)).out ∧
      (M.decodeFrom t as).used ≤ (M.decodeFrom t (as ++ bs)).used ∧
      ((M.decodeFrom t as).status ≠ .more →
        M.decodeFrom t (as ++ bs) = M.decodeFrom t as) := by
  induction as generalizing t with
  | nil => exact ⟨List.nil_prefix, Nat.zero_le _, fun h => absurd rfl h⟩
  | cons a as ih =>
    rw [List.cons_append, decodeFrom, decodeFrom]
    cases M.step t a with
    | next t' out =>
      obtain ⟨hout, hused, hstable⟩ := ih t'
      refine ⟨?_, Nat.succ_le_succ hused, fun h => congrArg (Decoded.after out) (hstable h)⟩
      exact (List.prefix_append_right_inj out).mpr hout
    | finish out => exact ⟨List.prefix_rfl, Nat.le_refl 1, fun _ => rfl⟩
    | fail out => exact ⟨List.prefix_rfl, Nat.le_refl 1, fun _ => rfl⟩

/-- Only the symbols that are read matter. -/
theorem decodeFrom_take_used (t : M.τ) (as : List α) :
    M.decodeFrom t (as.take (M.decodeFrom t as).used) = M.decodeFrom t as := by
  induction as generalizing t with
  | nil => rfl
  | cons a as ih =>
    cases hstep : M.step t a with
    | next t' out =>
      have hcons : M.decodeFrom t (a :: as) = (M.decodeFrom t' as).after out := by
        rw [decodeFrom, hstep]
      rw [hcons, Decoded.after, List.take_succ_cons, decodeFrom, hstep]
      exact congrArg (Decoded.after out) (ih t')
    | finish out => simp only [decodeFrom, hstep, List.take_succ_cons]
    | fail out => simp only [decodeFrom, hstep, List.take_succ_cons]

theorem decode_used_le (as : List α) : (M.decode as).used ≤ as.length := decodeFrom_used_le _ _

theorem decode_out_append (as bs : List α) : (M.decode as).out <+: (M.decode (as ++ bs)).out :=
  (decodeFrom_append _ _ _).1

theorem decode_used_mono (as bs : List α) : (M.decode as).used ≤ (M.decode (as ++ bs)).used :=
  (decodeFrom_append _ _ _).2.1

/-- Before the end of an encoded value everything is read and nothing is wrong. -/
theorem Member.of_append (h : M.Member (as ++ bs) out) :
    (M.decode as).used = as.length ∧ (M.decode as).status ≠ .corrupt := by
  obtain ⟨-, -, hstable⟩ := decodeFrom_append M.start as bs
  by_cases hmore : (M.decode as).status = .more
  · refine ⟨decodeFrom_used_of_more hmore, ?_⟩
    rw [hmore]
    exact Status.noConfusion
  · have heq : M.decode as = ⟨out, (as ++ bs).length, .done⟩ := (hstable hmore).symm.trans h
    have hle := decode_used_le (M := M) as
    rw [heq] at hle ⊢
    refine ⟨le_antisymm hle ?_, Status.noConfusion⟩
    rw [List.length_append]
    exact Nat.le_add_right _ _

end Machine

inductive Flush
  | noFlush
  | finish
  deriving DecidableEq

/-- What a call of the decoder returns. -/
inductive Ret
  | ok
  | streamEnd
  | needDict
  | dataError
  | streamError
  | memError
  | bufError
  deriving DecidableEq

/-- The state after a call, the number of symbols it consumed, what it put out, and the code it
returns. -/
structure Called (σ β : Type) where
  state : σ
  consumed : Nat
  output : List β
  ret : Ret

/-- A decoder of the format, with what its documentation promises to a caller who keeps its state
intact and gives it the memory it asks for. `totalIn` and `totalOut` are what it has consumed and
put out since `init`. -/
structure Inflate (M : Machine α β) where
  σ : Type
  init : σ
  inflate (s : σ) (data : List α) (room : Nat) (flush : Flush) : Called σ β
  totalIn : σ → List α
  totalOut : σ → List β
  totalIn_init : totalIn init = []
  totalOut_init : totalOut init = []
  consumed_le : ∀ s data room flush, (inflate s data room flush).consumed ≤ data.length
  output_le : ∀ s data room flush, (inflate s data room flush).output.length ≤ room
  totalIn_inflate : ∀ s data room flush,
    totalIn (inflate s data room flush).state =
      totalIn s ++ data.take (inflate s data room flush).consumed
  totalOut_inflate : ∀ s data room flush,
    totalOut (inflate s data room flush).state = totalOut s ++ (inflate s data room flush).output
  totalOut_prefix : ∀ s, totalOut s <+: (M.decode (totalIn s)).out
  /-- It stops before the room is used up only when it has put out all it can. -/
  drained : ∀ s data room flush, (inflate s data room flush).output.length < room →
    (M.decode (totalIn s ++ data)).status ≠ .corrupt →
    totalOut (inflate s data room flush).state = (M.decode (totalIn s ++ data)).out ∧
      (totalIn (inflate s data room flush).state).length = (M.decode (totalIn s ++ data)).used
  ret_ne_streamError : ∀ s data room flush, (inflate s data room flush).ret ≠ .streamError

namespace Inflate

variable {M : Machine α β} (I : Inflate M)

/-- The symbols that a call leaves are those that are still to be decoded. -/
theorem totalIn_append_drop (s : I.σ) (data : List α) (room : Nat) (flush : Flush) :
    I.totalIn (I.inflate s data room flush).state ++
        data.drop (I.inflate s data room flush).consumed =
      I.totalIn s ++ data := by
  rw [I.totalIn_inflate, List.append_assoc, List.take_append_drop]

/-- How much the decoder can still put out. -/
def pending (s : I.σ) (data : List α) : Nat :=
  (M.decode (I.totalIn s ++ data)).out.length - (I.totalOut s).length

theorem totalOut_length_le (s : I.σ) (data : List α) :
    (I.totalOut s).length ≤ (M.decode (I.totalIn s ++ data)).out.length :=
  ((I.totalOut_prefix s).trans (Machine.decode_out_append _ _)).length_le

/-- A call that puts something out leaves less. -/
theorem pending_inflate_lt {s : I.σ} {data : List α} {room : Nat} {flush : Flush}
    (h : 0 < (I.inflate s data room flush).output.length) :
    I.pending (I.inflate s data room flush).state
        (data.drop (I.inflate s data room flush).consumed) < I.pending s data := by
  have hle := I.totalOut_length_le (I.inflate s data room flush).state
    (data.drop (I.inflate s data room flush).consumed)
  rw [pending, pending]
  rw [I.totalIn_append_drop, I.totalOut_inflate, List.length_append] at hle ⊢
  omega

/-- What the decoder can still put out. -/
def left (s : I.σ) (data : List α) : List β :=
  (M.decode (I.totalIn s ++ data)).out.drop (I.totalOut s).length

theorem left_init (data : List α) : I.left I.init data = (M.decode data).out := by
  rw [left, I.totalIn_init, I.totalOut_init, List.nil_append, List.length_nil, List.drop_zero]

theorem totalOut_append_left (s : I.σ) (data : List α) :
    I.totalOut s ++ I.left s data = (M.decode (I.totalIn s ++ data)).out := by
  obtain ⟨rest, hrest⟩ := (I.totalOut_prefix s).trans (Machine.decode_out_append _ data)
  rw [left, ← hrest, List.drop_left]

/-- A call puts out the front of it. -/
theorem left_inflate (s : I.σ) (data : List α) (room : Nat) (flush : Flush) :
    I.left s data = (I.inflate s data room flush).output ++
      I.left (I.inflate s data room flush).state
        (data.drop (I.inflate s data room flush).consumed) := by
  have h := I.totalOut_append_left (I.inflate s data room flush).state
    (data.drop (I.inflate s data room flush).consumed)
  rw [I.totalIn_append_drop, ← I.totalOut_append_left s data, I.totalOut_inflate,
    List.append_assoc] at h
  exact (List.append_cancel_left h).symm

/-- A call with room to spare puts out all of it. -/
theorem left_of_room {s : I.σ} {data : List α} {room : Nat} {flush : Flush}
    (h : (I.inflate s data room flush).output.length < room)
    (hstatus : (M.decode (I.totalIn s ++ data)).status ≠ .corrupt) :
    I.left s data = (I.inflate s data room flush).output := by
  have hout := (I.drained s data room flush h hstatus).1
  rw [I.totalOut_inflate, ← I.totalOut_append_left s data] at hout
  exact (List.append_cancel_left hout).symm

end Inflate

/-! ## The contract can be met -/

/-- The input that was consumed, the output that was given, and that they fit together. -/
abbrev Machine.Position (M : Machine α β) :=
  { p : List α × List β // (M.decode p.1).used = p.1.length ∧ p.2 <+: (M.decode p.1).out }

namespace Machine.Position

variable {M : Machine α β} (s : M.Position) (data : List α) (room : Nat)

/-- What is put out next, if there is room for it. -/
def output : List β := ((M.decode (s.1.1 ++ data)).out.drop s.1.2.length).take room

theorem append_output_prefix : s.1.2 ++ s.output data room <+: (M.decode (s.1.1 ++ data)).out := by
  obtain ⟨rest, hrest⟩ := s.2.2.trans (decode_out_append s.1.1 data)
  rw [output, ← hrest, List.drop_left]
  exact (List.prefix_append_right_inj _).mpr (List.take_prefix _ _)

theorem append_output_of_lt (h : (s.output data room).length < room) :
    s.1.2 ++ s.output data room = (M.decode (s.1.1 ++ data)).out := by
  obtain ⟨rest, hrest⟩ := s.2.2.trans (decode_out_append s.1.1 data)
  rw [output, ← hrest, List.drop_left] at h ⊢
  rw [List.length_take] at h
  rw [List.take_of_length_le (by omega)]

theorem length_le_used : s.1.1.length ≤ (M.decode (s.1.1 ++ data)).used :=
  s.2.1 ▸ decode_used_mono s.1.1 data

def call : M.Position where
  val := ((s.1.1 ++ data).take (M.decode (s.1.1 ++ data)).used, s.1.2 ++ s.output data room)
  property := by
    have hdecode : M.decode ((s.1.1 ++ data).take (M.decode (s.1.1 ++ data)).used) =
        M.decode (s.1.1 ++ data) := decodeFrom_take_used _ _
    refine ⟨?_, ?_⟩
    · rw [hdecode, List.length_take, Nat.min_eq_left (decode_used_le _)]
    · rw [hdecode]
      exact s.append_output_prefix data room

end Machine.Position

/-- The decoder that reads as far as it can and puts out what there is room for. -/
def Inflate.reference (M : Machine α β) : Inflate M where
  σ := M.Position
  init := ⟨([], []), rfl, List.nil_prefix⟩
  inflate s data room flush :=
    let d := M.decode (s.1.1 ++ data)
    let consumed := d.used - s.1.1.length
    let output := s.output data room
    { state := s.call data room
      consumed
      output
      ret :=
        if output.length < room ∧ d.status = .done then .streamEnd
        else if output.length < room ∧ d.status = .corrupt then .dataError
        else if (consumed = 0 ∧ output = []) ∨ flush = .finish then .bufError
        else .ok }
  totalIn s := s.1.1
  totalOut s := s.1.2
  totalIn_init := rfl
  totalOut_init := rfl
  consumed_le s data room flush := by
    have hle := Machine.decode_used_le (M := M) (s.1.1 ++ data)
    rw [List.length_append] at hle
    exact Nat.sub_le_iff_le_add'.mpr hle
  output_le s data room flush := List.length_take_le _ _
  totalIn_inflate s data room flush := by
    show (s.1.1 ++ data).take _ = _
    rw [List.take_append, List.take_of_length_le (s.length_le_used data)]
  totalOut_inflate s data room flush := rfl
  totalOut_prefix s := s.2.2
  drained s data room flush hlt _ := by
    refine ⟨s.append_output_of_lt data room hlt, ?_⟩
    show ((s.1.1 ++ data).take _).length = _
    rw [List.length_take, Nat.min_eq_left (Machine.decode_used_le _)]
  ret_ne_streamError s data room flush := by
    dsimp only
    split
    · exact Ret.noConfusion
    split
    · exact Ret.noConfusion
    split
    · exact Ret.noConfusion
    · exact Ret.noConfusion

/-- The machine that knows one encoded value: each of its symbols with the output it leads to. -/
def Machine.single [DecidableEq α] (value : List (α × List β)) : Machine α β where
  τ := List (α × List β)
  start := value
  step
    | [], _ => .fail []
    | (a, out) :: rest, b =>
      if b = a then if rest.isEmpty then .finish out else .next rest out else .fail []

namespace Machine

variable [DecidableEq α] {value : List (α × List β)} {as : List α} {out : List β}

theorem single_decodeFrom_cons (p : α × List β) (t : List (α × List β)) (a : α) (as : List α) :
    (single value).decodeFrom (p :: t) (a :: as) =
      if a = p.1 then
        if t = [] then ⟨p.2, 1, .done⟩ else ((single value).decodeFrom t as).after p.2
      else ⟨[], 1, .corrupt⟩ := by
  simp only [decodeFrom, single]
  by_cases ha : a = p.1
  · cases t with
    | nil => simp [ha]
    | cons p' t => simp [ha]
  · simp [ha]

theorem single_decodeFrom {t : List (α × List β)} (h : t ≠ []) :
    (single value).decodeFrom t (t.map (·.1)) = ⟨(t.map (·.2)).flatten, t.length, .done⟩ := by
  induction t with
  | nil => exact absurd rfl h
  | cons p t ih =>
    rw [List.map_cons, single_decodeFrom_cons, if_pos rfl]
    split
    · next ht => simp [ht]
    · next ht =>
      rw [ih ht]
      rfl

theorem single_member (h : value ≠ []) :
    (single value).Member (value.map (·.1)) (value.map (·.2)).flatten := by
  rw [Member, decode, List.length_map]
  exact single_decodeFrom h

/-- Nothing else is an encoded value. -/
theorem eq_of_single_decodeFrom {t : List (α × List β)} {d : Decoded β}
    (h : (single value).decodeFrom t as = d) (hused : d.used = as.length) (hdone : d.status = .done) :
    as = t.map (·.1) ∧ d.out = (t.map (·.2)).flatten := by
  induction as generalizing t d with
  | nil =>
    subst h
    cases hdone
  | cons a as ih =>
    cases t with
    | nil =>
      subst h
      cases hdone
    | cons p t =>
      rw [single_decodeFrom_cons] at h
      split at h
      · next ha =>
        split at h
        · next ht =>
          subst h ha ht
          obtain rfl : as = [] := List.eq_nil_of_length_eq_zero (Nat.succ.inj hused).symm
          exact ⟨rfl, (List.append_nil _).symm⟩
        · subst h ha
          obtain ⟨hrest, hout⟩ := ih rfl (Nat.succ.inj hused) hdone
          exact ⟨congrArg (p.1 :: ·) hrest, congrArg (p.2 ++ ·) hout⟩
      · subst h
        cases hdone

theorem single_member_iff (h : value ≠ []) :
    (single value).Member as out ↔ as = value.map (·.1) ∧ out = (value.map (·.2)).flatten := by
  constructor
  · exact fun hm => eq_of_single_decodeFrom hm rfl rfl
  · rintro ⟨rfl, rfl⟩
    exact single_member h

end Machine

end StreamDecoder

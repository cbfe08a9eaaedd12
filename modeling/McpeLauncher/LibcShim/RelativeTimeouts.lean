import McpeLauncher.Client.BionicCond
import McpeLauncher.Lib.Words

/-!
# Relative timeouts

`shim::sem_timedwait` and `bionic_pthread_cond_timedwait` both make a relative wait of an absolute
time. `Client.Timespec.relative` is the subtraction without the limits of the words.
-/

namespace McpeLauncher.RelativeTimeouts
open Words

structure Timespec where
  tvSec : Int64
  tvNsec : Int64
  deriving DecidableEq

structure MachTimespec where
  tvSec : UInt32
  tvNsec : Int32
  deriving DecidableEq

/-- `ts` in `sem_timedwait` -/
def semTimedwait (absTimeout now : Timespec) : MachTimespec :=
  if absTimeout.tvSec > now.tvSec ∨
      (absTimeout.tvSec = now.tvSec ∧ absTimeout.tvNsec > now.tvNsec) then
    ⟨(absTimeout.tvSec - now.tvSec).toUInt64.toUInt32, (absTimeout.tvNsec - now.tvNsec).toInt32⟩
  else ⟨0, 0⟩

/-- `rel` in `bionic_pthread_cond_timedwait`, before the test of its sign -/
def condRel (abstime now : Timespec) : Timespec :=
  if abstime.tvNsec - now.tvNsec < 0 then
    ⟨abstime.tvSec - now.tvSec - 1, abstime.tvNsec - now.tvNsec + 1000000000⟩
  else ⟨abstime.tvSec - now.tvSec, abstime.tvNsec - now.tvNsec⟩

/-- With `none` it returns `ETIMEDOUT` and does not wait. -/
def condTimedwait (abstime now : Timespec) : Option Timespec :=
  if (condRel abstime now).tvSec < 0 then none else some (condRel abstime now)

/-! ## Times as numbers -/

namespace Timespec

def toClient (t : Timespec) : Client.Timespec := ⟨t.tvSec.toInt, t.tvNsec.toInt⟩

def Normalised (t : Timespec) : Prop := 0 ≤ t.tvNsec.toInt ∧ t.tvNsec.toInt < 1000000000

end Timespec

def MachTimespec.toClient (t : MachTimespec) : Client.Timespec := ⟨t.tvSec.toNat, t.tvNsec.toInt⟩

def nanoseconds (t : Client.Timespec) : Int := t.tvSec * 1000000000 + t.tvNsec

/-- A wait of `sem_timedwait` that is a number of nanoseconds in normal form, which is the exact one
and that of the other function, if that waits. -/
structure Exact (absolute now : Timespec) : Prop where
  normalised : (semTimedwait absolute now).toClient.Valid
  exact : nanoseconds (semTimedwait absolute now).toClient =
    max 0 (nanoseconds absolute.toClient - nanoseconds now.toClient)
  agrees : ∀ rel, condTimedwait absolute now = some rel →
    rel.toClient = (semTimedwait absolute now).toClient

section Words
variable {absolute now : Timespec}

theorem toInt_sub_tvNsec (habsolute : absolute.Normalised) (hnow : now.Normalised) :
    (absolute.tvNsec - now.tvNsec).toInt = absolute.tvNsec.toInt - now.tvNsec.toInt := by
  obtain ⟨hale, halt⟩ := habsolute
  obtain ⟨hnle, hnlt⟩ := hnow
  rw [Int64.toInt_sub]
  exact bmod_eq_self (by omega) (by omega)

/-- `sem_timedwait` compares the words, first the seconds. -/
theorem after_iff (habsolute : absolute.Normalised) (hnow : now.Normalised) :
    (absolute.tvSec > now.tvSec ∨
      (absolute.tvSec = now.tvSec ∧ absolute.tvNsec > now.tvNsec)) ↔
    nanoseconds now.toClient < nanoseconds absolute.toClient := by
  obtain ⟨hale, halt⟩ := habsolute
  obtain ⟨hnle, hnlt⟩ := hnow
  rw [gt_iff_lt, gt_iff_lt, Int64.lt_iff_toInt_lt, Int64.lt_iff_toInt_lt, ← Int64.toInt_inj]
  dsimp only [nanoseconds, Timespec.toClient]
  omega

/-- What `sem_timedwait` computes before the time. -/
theorem semTimedwait_of_lt (habsolute : absolute.Normalised) (hnow : now.Normalised)
    (hlt : nanoseconds now.toClient < nanoseconds absolute.toClient) :
    (semTimedwait absolute now).toClient =
      ⟨(absolute.tvSec.toInt - now.tvSec.toInt) % 2 ^ 32,
        absolute.tvNsec.toInt - now.tvNsec.toInt⟩ := by
  rw [semTimedwait, if_pos ((after_iff habsolute hnow).mpr hlt), MachTimespec.toClient]
  dsimp only
  rw [toNat_toUInt32, Int64.toInt_sub, Int64.toInt_toInt32, toInt_sub_tvNsec habsolute hnow]
  obtain ⟨hale, halt⟩ := habsolute
  obtain ⟨hnle, hnlt⟩ := hnow
  rw [Int.bmod_eq_of_le (n := absolute.tvNsec.toInt - now.tvNsec.toInt) (by omega) (by omega)]
  congr 1
  rw [Int.bmod_def]
  split <;> omega

/-- And after it. -/
theorem semTimedwait_of_le (habsolute : absolute.Normalised) (hnow : now.Normalised)
    (hle : nanoseconds absolute.toClient ≤ nanoseconds now.toClient) :
    (semTimedwait absolute now).toClient = ⟨0, 0⟩ := by
  rw [semTimedwait, if_neg fun h => not_lt.mpr hle ((after_iff habsolute hnow).mp h)]
  rfl

/-- The subtraction is exact and leaves a normal form. -/
theorem relative_spec (habsolute : absolute.Normalised) (hnow : now.Normalised) :
    nanoseconds (absolute.toClient.relative now.toClient) =
      nanoseconds absolute.toClient - nanoseconds now.toClient ∧
    0 ≤ (absolute.toClient.relative now.toClient).tvNsec ∧
    (absolute.toClient.relative now.toClient).tvNsec < 1000000000 := by
  obtain ⟨hale, halt⟩ := habsolute
  obtain ⟨hnle, hnlt⟩ := hnow
  dsimp only [Client.Timespec.relative, nanoseconds, Timespec.toClient]
  split <;> dsimp only <;> omega

/-- `rel` is the exact difference, but for the overflow of the seconds. -/
theorem condRel_eq (habsolute : absolute.Normalised) (hnow : now.Normalised) :
    (condRel absolute now).toClient =
      ⟨(absolute.toClient.relative now.toClient).tvSec.bmod (2 ^ 64),
        (absolute.toClient.relative now.toClient).tvNsec⟩ := by
  have hnsec := toInt_sub_tvNsec habsolute hnow
  obtain ⟨hale, halt⟩ := habsolute
  obtain ⟨hnle, hnlt⟩ := hnow
  have hneg : absolute.tvNsec - now.tvNsec < 0 ↔
      absolute.toClient.tvNsec - now.toClient.tvNsec < 0 := by
    rw [Int64.lt_iff_toInt_lt, hnsec]
    rfl
  rw [condRel, Client.Timespec.relative]
  by_cases h : absolute.tvNsec - now.tvNsec < 0
  · rw [if_pos h, if_pos (hneg.mp h)]
    have hadd : (absolute.tvNsec - now.tvNsec + 1000000000).toInt =
        absolute.tvNsec.toInt - now.tvNsec.toInt + 1000000000 := by
      rw [Int64.toInt_add, hnsec, show (1000000000 : Int64).toInt = 1000000000 from rfl]
      exact bmod_eq_self (by omega) (by omega)
    rw [Timespec.toClient, hadd, Int64.toInt_sub, Int64.toInt_sub, Int64.toInt_one,
      Int.bmod_sub_bmod]
    rfl
  · rw [if_neg h, if_neg (mt hneg.mpr h), Timespec.toClient, hnsec, Int64.toInt_sub]
    rfl

/-- The other function waits when the seconds of the exact difference, as a word, are not negative. -/
theorem condTimedwait_eq_some {rel : Timespec} (habsolute : absolute.Normalised)
    (hnow : now.Normalised) : condTimedwait absolute now = some rel ↔
    0 ≤ (absolute.toClient.relative now.toClient).tvSec.bmod (2 ^ 64) ∧
      rel = condRel absolute now := by
  have hsec : (condRel absolute now).tvSec.toInt =
      (absolute.toClient.relative now.toClient).tvSec.bmod (2 ^ 64) :=
    congrArg Client.Timespec.tvSec (condRel_eq habsolute hnow)
  have hneg : (condRel absolute now).tvSec < 0 ↔
      (absolute.toClient.relative now.toClient).tvSec.bmod (2 ^ 64) < 0 := by
    rw [Int64.lt_iff_toInt_lt, hsec]
    rfl
  rw [condTimedwait]
  by_cases h : (condRel absolute now).tvSec < 0
  · rw [if_pos h]
    exact iff_of_false nofun fun hge => not_lt.mpr hge.1 (hneg.mp h)
  · rw [if_neg h, Option.some_inj, and_iff_right (not_lt.mp (mt hneg.mpr h)), eq_comm]

theorem agrees_iff (habsolute : absolute.Normalised) (hnow : now.Normalised) :
    (∀ rel, condTimedwait absolute now = some rel →
      rel.toClient = (semTimedwait absolute now).toClient) ↔
    (0 ≤ (absolute.toClient.relative now.toClient).tvSec.bmod (2 ^ 64) →
      (semTimedwait absolute now).toClient =
        ⟨(absolute.toClient.relative now.toClient).tvSec.bmod (2 ^ 64),
          (absolute.toClient.relative now.toClient).tvNsec⟩) := by
  rw [← condRel_eq habsolute hnow]
  constructor
  · intro h hge
    exact (h _ ((condTimedwait_eq_some habsolute hnow).mpr ⟨hge, rfl⟩)).symm
  · intro h rel hrel
    obtain ⟨hge, rfl⟩ := (condTimedwait_eq_some habsolute hnow).mp hrel
    exact (h hge).symm

theorem lt_nanoseconds_sub (habsolute : absolute.Normalised) (hnow : now.Normalised) :
    -2 ^ 64 * 1000000000 < nanoseconds absolute.toClient - nanoseconds now.toClient := by
  have hale := Int64.le_toInt absolute.tvSec
  have hnlt := Int64.toInt_lt now.tvSec
  obtain ⟨hnsec, -⟩ := habsolute
  obtain ⟨-, hnsec'⟩ := hnow
  dsimp only [nanoseconds, Timespec.toClient]
  omega

theorem exact_of_le_iff (habsolute : absolute.Normalised) (hnow : now.Normalised)
    (hle : nanoseconds absolute.toClient ≤ nanoseconds now.toClient) : Exact absolute now ↔
    -2 ^ 63 ≤ (absolute.toClient.relative now.toClient).tvSec := by
  have hsem := semTimedwait_of_le habsolute hnow hle
  obtain ⟨hsub, hnsec, hnsecLt⟩ := relative_spec habsolute hnow
  have hbound := lt_nanoseconds_sub habsolute hnow
  have hagrees := agrees_iff habsolute hnow
  generalize absolute.toClient.relative now.toClient = rel at *
  rw [nanoseconds] at hsub
  constructor
  · intro h
    by_contra hlt
    -- the overflow makes the other function wait
    have hbmod : rel.tvSec.bmod (2 ^ 64) = rel.tvSec + 2 ^ 64 := by
      rw [Int.bmod_def]
      split <;> omega
    have hzero := hagrees.mp h.agrees (by omega)
    rw [hsem, Client.Timespec.mk.injEq] at hzero
    omega
  · intro hge
    refine ⟨?_, ?_, hagrees.mpr fun hwaits => ?_⟩
    · rw [hsem]
      decide
    · rw [hsem, max_eq_left (by omega)]
      rfl
    · rw [bmod_eq_self hge (by omega)] at hwaits ⊢
      rw [hsem, Client.Timespec.mk.injEq]
      omega

theorem exact_of_lt_iff (habsolute : absolute.Normalised) (hnow : now.Normalised)
    (hlt : nanoseconds now.toClient < nanoseconds absolute.toClient) : Exact absolute now ↔
    now.tvNsec.toInt ≤ absolute.tvNsec.toInt ∧
      absolute.tvSec.toInt - now.tvSec.toInt < 2 ^ 32 := by
  have hsem := semTimedwait_of_lt habsolute hnow hlt
  have hagrees := agrees_iff habsolute hnow
  obtain ⟨hale, halt⟩ := habsolute
  obtain ⟨hnle, hnlt⟩ := hnow
  have hsub : nanoseconds absolute.toClient - nanoseconds now.toClient =
      (absolute.tvSec.toInt - now.tvSec.toInt) * 1000000000 +
        (absolute.tvNsec.toInt - now.tvNsec.toInt) := by
    dsimp only [nanoseconds, Timespec.toClient]
    omega
  constructor
  · intro h
    obtain ⟨-, hnsec, -⟩ := h.normalised
    have hexact := h.exact
    rw [hsem] at hnsec hexact
    rw [max_eq_right (by omega), hsub, nanoseconds] at hexact
    dsimp only at hnsec hexact
    omega
  · rintro ⟨hnsec, hsec⟩
    have hmod : (absolute.tvSec.toInt - now.tvSec.toInt) % 2 ^ 32 =
        absolute.tvSec.toInt - now.tvSec.toInt := Int.emod_eq_of_lt (by omega) hsec
    rw [hmod] at hsem
    refine ⟨?_, ?_, hagrees.mpr fun hwaits => ?_⟩
    · rw [hsem]
      exact ⟨by dsimp only; omega, by dsimp only; omega, by dsimp only; omega⟩
    · rw [hsem, max_eq_right (by omega), hsub, nanoseconds]
    · rw [hsem, Client.Timespec.relative, if_neg (by dsimp only [Timespec.toClient]; omega)]
      dsimp only [Timespec.toClient]
      rw [bmod_eq_self (by omega) (by omega)]

end Words

/-- The wait is right when the time is not before now by more seconds than a word has, and, if it is
after now, has no smaller nanoseconds and is less than 2 ^ 32 seconds away. -/
theorem semTimedwait_iff (absolute now : Timespec) (habsolute : absolute.Normalised)
    (hnow : now.Normalised) : Exact absolute now ↔
    if nanoseconds absolute.toClient ≤ nanoseconds now.toClient then
      -2 ^ 63 ≤ (absolute.toClient.relative now.toClient).tvSec
    else now.tvNsec.toInt ≤ absolute.tvNsec.toInt ∧
      absolute.tvSec.toInt - now.tvSec.toInt < 2 ^ 32 := by
  split
  · rename_i hle
    exact exact_of_le_iff habsolute hnow hle
  · rename_i hle
    exact exact_of_lt_iff habsolute hnow (not_le.mp hle)

/-- There are 1.1 s left. -/
theorem semTimedwait_second : Exact ⟨12, 200000000⟩ ⟨11, 100000000⟩ :=
  (semTimedwait_iff ⟨12, 200000000⟩ ⟨11, 100000000⟩ ⟨by decide, by decide⟩
    ⟨by decide, by decide⟩).mpr (by decide)

/-- One nanosecond is left, and the wait is one second and -999999999 ns. -/
theorem semTimedwait_borrow : Timespec.Normalised ⟨11, 0⟩ ∧ Timespec.Normalised ⟨10, 999999999⟩ ∧
    semTimedwait ⟨11, 0⟩ ⟨10, 999999999⟩ = ⟨1, -999999999⟩ ∧
    condTimedwait ⟨11, 0⟩ ⟨10, 999999999⟩ = some ⟨0, 1⟩ ∧ ¬ Exact ⟨11, 0⟩ ⟨10, 999999999⟩ := by
  refine ⟨⟨by decide, by decide⟩, ⟨by decide, by decide⟩, by decide, by decide, fun h => ?_⟩
  exact absurd h.normalised (by decide)

end McpeLauncher.RelativeTimeouts

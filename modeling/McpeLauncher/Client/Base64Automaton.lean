import McpeLauncher.Client.Base64Lines
import McpeLauncher.Lib.Runs

/-!
# Decoding as an automaton

Where `decode` looks up the characters of a text. It reads them one after the other, so it is an
automaton, whose states are how much of a group of four it has.
-/

namespace McpeLauncher.Base64

/-! ## The table -/

/-- `initReverseTable` -/
def initReverseTable : List UInt8 :=
  let reverseTable := List.replicate 256 255
  let reverseTable := (List.range 64).foldl
    (fun reverseTable i => reverseTable.set (table.getD i 0).toNat (UInt8.ofNat i)) reverseTable
  reverseTable.set 61 64

theorem reverseTable_congr {outside outside' : UInt8 → UInt8} {c : UInt8} (hc : c < 128) :
    reverseTable outside c = reverseTable outside' c := by
  rw [reverseTable, reverseTable, if_neg (UInt8.not_le.mpr hc), if_neg (UInt8.not_le.mpr hc)]

theorem take_initReverseTable : initReverseTable.take 128 =
    (List.range 128).map fun k => reverseTable id (UInt8.ofNat k) := by
  decide +kernel

/-- What `initReverseTable` leaves in the table. -/
theorem initReverseTable_getElem? (outside : UInt8 → UInt8) {c : UInt8} (hc : c < 128) :
    initReverseTable[c.toNat]? = some (reverseTable outside c) := by
  have hlt : c.toNat < 128 := UInt8.lt_iff_toNat_lt.mp hc
  rw [← List.getElem?_take_of_lt hlt, take_initReverseTable, List.getElem?_map,
    List.getElem?_range hlt, Option.map_some, UInt8.ofNat_toNat, reverseTable_congr hc]

/-- A `char` as an index. -/
def index (c : UInt8) : Int := c.toInt8.toInt

section Lookups
variable (outside : UInt8 → UInt8) (skipChars : List UInt8)

/-- The characters that `readDigit` looks up. -/
def digitLookups : List UInt8 → List UInt8
  | [] => []
  | c :: input =>
    c :: if reverseTable outside c = 255 ∧ isSkipped skipChars c then digitLookups input else []

/-- Those of `readBlock`. -/
def blockLookups (p : Nat) (input : List UInt8) : List UInt8 :=
  digitLookups outside skipChars input ++
  match readDigit outside skipChars 0 64 p input with
  | .error _ => []
  | .ok (i0, p, input) => digitLookups outside skipChars input ++
    match readDigit outside skipChars 1 i0 p input with
    | .error _ => []
    | .ok (i1, p, input) => digitLookups outside skipChars input ++
      match readDigit outside skipChars 2 i1 p input with
      | .error _ => []
      | .ok (_, _, input) => digitLookups outside skipChars input

/-- Those of the loop of `decode`. -/
def lookups (p : Nat) (input : List UInt8) : List UInt8 :=
  match input with
  | [] => []
  | c :: input =>
    blockLookups outside skipChars p (c :: input) ++
    match _h : readBlock outside skipChars p (c :: input) with
    | .error _ => []
    | .ok (_, p, rest) => lookups p rest
termination_by input.length
decreasing_by exact readBlock_length ‹_›

end Lookups

/-! ## The automaton -/

/-- Before a group, or before the digit `n` of one; `padded` if the digit before it is missing. -/
inductive State
  | boundary
  | digit (n : Nat) (padded : Bool)
  deriving DecidableEq

namespace State

/-- Behind a digit with the value `i`. -/
def next (n : Nat) (i : UInt8) : State :=
  if n = 3 then .boundary else .digit (n + 1) (i = 64)

/-- At the end of the input the missing digits may be made up. -/
def Final : State → Prop
  | .boundary => True
  | .digit n _ => 2 ≤ n

end State

section Automaton
variable (outside : UInt8 → UInt8)

def digitStep (n : Nat) (padded : Bool) (c : UInt8) : Option State :=
  let i := reverseTable outside c
  if i ≠ 255 then
    if (i = 64 ∧ n < 2) ∨ (n = 3 ∧ padded ∧ i ≠ 64) then none else some (.next n i)
  else if isSkipped lineBreaks c then some (.digit n padded) else none

def step (s : State) (c : UInt8) : Option State :=
  match s with
  | .boundary => digitStep outside 0 false c
  | .digit n padded => digitStep outside n padded c

def Accepts (s : State) (input : List UInt8) : Prop :=
  ∃ s', Runs.run (step outside) s input = some s' ∧ s'.Final

/-- The characters that are read before a step is not defined, that one too. -/
def looked (s : State) : List UInt8 → List UInt8
  | [] => []
  | c :: input =>
    c :: match step outside s c with
      | none => []
      | some s' => looked s' input

end Automaton

section Simulation
variable {outside : UInt8 → UInt8} {s : State} {c : UInt8} {input rest : List UInt8} {n p p' : Nat}
  {padded : Bool} {previous i : UInt8}

theorem accepts_nil : Accepts outside s [] ↔ s.Final :=
  ⟨fun ⟨_, hrun, hfinal⟩ => Option.some.inj hrun ▸ hfinal, fun h => ⟨s, rfl, h⟩⟩

theorem accepts_cons : Accepts outside s (c :: input) ↔
    ∃ s', step outside s c = some s' ∧ Accepts outside s' input := by
  constructor
  · rintro ⟨t, hrun, hfinal⟩
    obtain ⟨s', hstep, hrest⟩ := Option.bind_eq_some_iff.mp hrun
    exact ⟨s', hstep, t, hrest, hfinal⟩
  · rintro ⟨s', hstep, t, hrest, hfinal⟩
    exact ⟨t, Option.bind_eq_some_iff.mpr ⟨s', hstep, hrest⟩, hfinal⟩

theorem accepts_cons_of_some {s' : State} (h : step outside s c = some s') :
    Accepts outside s (c :: input) ↔ Accepts outside s' input := by
  rw [accepts_cons, h]
  exact ⟨fun ⟨_, heq, haccepts⟩ => Option.some.inj heq ▸ haccepts, fun haccepts => ⟨s', rfl, haccepts⟩⟩

theorem not_accepts_cons (h : step outside s c = none) : ¬ Accepts outside s (c :: input) := by
  rw [accepts_cons, h]
  exact fun ⟨_, heq, _⟩ => nomatch heq

theorem looked_cons : looked outside s (c :: input) =
    c :: match step outside s c with
      | none => []
      | some s' => looked outside s' input := by
  rw [looked]

theorem final_next (hn : n = 2 ∨ n = 3) : (State.next n i).Final := by
  obtain rfl | rfl := hn
  · exact Nat.le_succ 2
  · trivial

theorem invalid_iff (hprevious : n = 3 → (padded = true ↔ previous = 64)) :
    (i = 64 ∧ n < 2) ∨ (n = 3 ∧ padded = true ∧ i ≠ 64) ↔
      (i = 64 ∧ n < 2) ∨ (n = 3 ∧ previous = 64 ∧ i ≠ 64) :=
  or_congr_right (and_congr_right fun hn => and_congr_left fun _ => hprevious hn)

/-- A skipped character changes nothing. -/
theorem read_skipped (hvalue : reverseTable outside c = 255) (hskipped : isSkipped lineBreaks c) :
    (Accepts outside (.digit n padded) (c :: input) ↔ Accepts outside (.digit n padded) input) ∧
    looked outside (.digit n padded) (c :: input) = c :: looked outside (.digit n padded) input ∧
    digitLookups outside lineBreaks (c :: input) = c :: digitLookups outside lineBreaks input := by
  have hsome : step outside (.digit n padded) c = some (.digit n padded) := by
    rw [step, digitStep, if_neg (not_not.mpr hvalue), if_pos hskipped]
  refine ⟨accepts_cons_of_some hsome, ?_, ?_⟩
  · rw [looked_cons, hsome]
  · rw [digitLookups, if_pos ⟨hvalue, hskipped⟩]

/-- At another one the automaton stops if it has no step. -/
theorem read_stopped (hnone : step outside (.digit n padded) c = none)
    (hread : ¬(reverseTable outside c = 255 ∧ isSkipped lineBreaks c)) :
    ¬ Accepts outside (.digit n padded) (c :: input) ∧
    looked outside (.digit n padded) (c :: input) = digitLookups outside lineBreaks (c :: input) := by
  refine ⟨not_accepts_cons hnone, ?_⟩
  rw [looked_cons, hnone, digitLookups, if_neg hread]

/-- A digit that is read is a step of the automaton, or more of them with skipped characters. -/
theorem readDigit_ok (padded : Bool) (hn : n ≤ 3)
    (hprevious : n = 3 → (padded = true ↔ previous = 64))
    (h : readDigit outside lineBreaks n previous p input = .ok (i, p', rest)) :
    (Accepts outside (.digit n padded) input ↔ Accepts outside (.next n i) rest) ∧
    looked outside (.digit n padded) input =
      digitLookups outside lineBreaks input ++ looked outside (.next n i) rest := by
  induction input generalizing p with
  | nil =>
    rw [readDigit] at h
    split at h
    · cases h
    · next hlt =>
      cases h
      refine ⟨iff_of_true (accepts_nil.mpr (Nat.le_of_not_lt hlt)) ?_, rfl⟩
      exact accepts_nil.mpr (final_next (by omega))
  | cons c input ih =>
    rw [readDigit] at h
    split at h
    · next hvalue =>
      split at h
      · cases h
      · next hvalid =>
        cases h
        have hsome : step outside (.digit n padded) c = some (.next n (reverseTable outside c)) := by
          rw [step, digitStep, if_pos hvalue, if_neg (mt (invalid_iff hprevious).mp hvalid)]
        refine ⟨accepts_cons_of_some hsome, ?_⟩
        rw [looked_cons, hsome, digitLookups, if_neg fun hskip => hvalue hskip.1]
        rfl
    · next hvalue =>
      split at h
      · next hskipped =>
        obtain ⟨haccepts, hlooked, hlookups⟩ := read_skipped (not_not.mp hvalue) hskipped
        rw [haccepts, hlooked, hlookups]
        obtain ⟨haccepts', hlooked'⟩ := ih h
        exact ⟨haccepts', congrArg (c :: ·) hlooked'⟩
      · cases h

/-- Where no digit is read, the automaton does not accept. -/
theorem readDigit_error {what : String} (padded : Bool)
    (hprevious : n = 3 → (padded = true ↔ previous = 64))
    (h : readDigit outside lineBreaks n previous p input = .error what) :
    ¬ Accepts outside (.digit n padded) input ∧
    looked outside (.digit n padded) input = digitLookups outside lineBreaks input := by
  induction input generalizing p with
  | nil =>
    rw [readDigit] at h
    split at h
    · next hlt => exact ⟨fun haccepts => Nat.not_lt_of_le (accepts_nil.mp haccepts) hlt, rfl⟩
    · cases h
  | cons c input ih =>
    rw [readDigit] at h
    split at h
    · next hvalue =>
      split at h
      · next hinvalid =>
        refine read_stopped ?_ fun hskip => hvalue hskip.1
        rw [step, digitStep, if_pos hvalue, if_pos ((invalid_iff hprevious).mpr hinvalid)]
      · cases h
    · next hvalue =>
      split at h
      · next hskipped =>
        obtain ⟨haccepts, hlooked, hlookups⟩ := read_skipped (not_not.mp hvalue) hskipped
        rw [haccepts, hlooked, hlookups]
        obtain ⟨haccepts', hlooked'⟩ := ih h
        exact ⟨haccepts', congrArg (c :: ·) hlooked'⟩
      · next hskipped =>
        refine read_stopped ?_ fun hskip => hskipped hskip.2
        rw [step, digitStep, if_neg hvalue, if_neg hskipped]

/-- Before a group nothing is missing. -/
theorem boundary_iff (outside : UInt8 → UInt8) (hinput : input ≠ []) :
    (Accepts outside .boundary input ↔ Accepts outside (.digit 0 false) input) ∧
    looked outside .boundary input = looked outside (.digit 0 false) input := by
  obtain ⟨c, input, rfl⟩ := List.exists_cons_of_ne_nil hinput
  have hstep : step outside .boundary c = step outside (.digit 0 false) c := rfl
  rw [accepts_cons, accepts_cons, looked_cons, looked_cons, hstep]
  exact ⟨Iff.rfl, rfl⟩

theorem readBlock_ok {out : List UInt8}
    (h : readBlock outside lineBreaks p input = .ok (out, p', rest)) :
    (Accepts outside (.digit 0 false) input ↔ Accepts outside .boundary rest) ∧
    looked outside (.digit 0 false) input =
      blockLookups outside lineBreaks p input ++ looked outside .boundary rest := by
  obtain ⟨i0, i1, i2, i3, p0, p1, p2, rest0, rest1, rest2, h0, h1, h2, h3, -⟩ := readBlock_eq_ok h
  have hpadded : (3 : Nat) = 3 → (decide (i2 = 64) = true ↔ i2 = 64) := fun _ => decide_eq_true_iff
  obtain ⟨haccepts0, hlooked0⟩ := readDigit_ok false (by omega) (by omega) h0
  obtain ⟨haccepts1, hlooked1⟩ := readDigit_ok (decide (i0 = 64)) (by omega) (by omega) h1
  obtain ⟨haccepts2, hlooked2⟩ := readDigit_ok (decide (i1 = 64)) (by omega) (by omega) h2
  obtain ⟨haccepts3, hlooked3⟩ := readDigit_ok (decide (i2 = 64)) (by omega) hpadded h3
  refine ⟨haccepts0.trans (haccepts1.trans (haccepts2.trans haccepts3)), ?_⟩
  simp only [blockLookups, h0, h1, h2, List.append_assoc]
  rw [hlooked0]
  refine congrArg (_ ++ ·) (hlooked1.trans (congrArg (_ ++ ·) (hlooked2.trans ?_)))
  exact congrArg (_ ++ ·) hlooked3

/-- A block that cannot be read has a digit that cannot. -/
theorem readBlock_eq_error {what : String}
    (h : readBlock outside lineBreaks p input = .error what) :
    readDigit outside lineBreaks 0 64 p input = .error what ∨
    ∃ i0 p0 rest0, readDigit outside lineBreaks 0 64 p input = .ok (i0, p0, rest0) ∧
      (readDigit outside lineBreaks 1 i0 p0 rest0 = .error what ∨
      ∃ i1 p1 rest1, readDigit outside lineBreaks 1 i0 p0 rest0 = .ok (i1, p1, rest1) ∧
        (readDigit outside lineBreaks 2 i1 p1 rest1 = .error what ∨
        ∃ i2 p2 rest2, readDigit outside lineBreaks 2 i1 p1 rest1 = .ok (i2, p2, rest2) ∧
          readDigit outside lineBreaks 3 i2 p2 rest2 = .error what)) := by
  simp only [readBlock, bind, Except.bind] at h
  split at h
  · next h0 =>
      cases h
      exact .inl h0
  · next h0 =>
    refine .inr ⟨_, _, _, h0, ?_⟩
    split at h
    · next h1 =>
        cases h
        exact .inl h1
    · next h1 =>
      refine .inr ⟨_, _, _, h1, ?_⟩
      split at h
      · next h2 =>
          cases h
          exact .inl h2
      · next h2 =>
        refine .inr ⟨_, _, _, h2, ?_⟩
        split at h
        · next h3 =>
            cases h
            exact h3
        · cases h

theorem readBlock_error {what : String}
    (h : readBlock outside lineBreaks p input = .error what) :
    ¬ Accepts outside (.digit 0 false) input ∧
    looked outside (.digit 0 false) input = blockLookups outside lineBreaks p input := by
  obtain h0 | ⟨i0, p0, rest0, h0, h⟩ := readBlock_eq_error h
  · simp only [blockLookups, h0, List.append_nil]
    exact readDigit_error false (by omega) h0
  obtain ⟨haccepts0, hlooked0⟩ := readDigit_ok false (by omega) (by omega) h0
  rw [haccepts0, hlooked0]
  obtain h1 | ⟨i1, p1, rest1, h1, h⟩ := h
  · obtain ⟨haccepts1, hlooked1⟩ := readDigit_error (decide (i0 = 64)) (by omega) h1
    simp only [blockLookups, h0, h1, List.append_nil]
    exact ⟨haccepts1, congrArg (_ ++ ·) hlooked1⟩
  obtain ⟨haccepts1, hlooked1⟩ := readDigit_ok (decide (i0 = 64)) (by omega) (by omega) h1
  obtain h2 | ⟨i2, p2, rest2, h2, h3⟩ := h
  · obtain ⟨haccepts2, hlooked2⟩ := readDigit_error (decide (i1 = 64)) (by omega) h2
    simp only [blockLookups, h0, h1, h2, List.append_nil]
    refine ⟨mt haccepts1.mp haccepts2, congrArg (_ ++ ·) (hlooked1.trans ?_)⟩
    exact congrArg (_ ++ ·) hlooked2
  obtain ⟨haccepts2, hlooked2⟩ := readDigit_ok (decide (i1 = 64)) (by omega) (by omega) h2
  obtain ⟨haccepts3, hlooked3⟩ :=
    readDigit_error (decide (i2 = 64)) (fun _ => decide_eq_true_iff) h3
  simp only [blockLookups, h0, h1, h2]
  refine ⟨mt (haccepts1.trans haccepts2).mp haccepts3, congrArg (_ ++ ·) (hlooked1.trans ?_)⟩
  exact congrArg (_ ++ ·) (hlooked2.trans (congrArg (_ ++ ·) hlooked3))

theorem lookups_error {what : String}
    (h : readBlock outside lineBreaks p (c :: input) = .error what) :
    lookups outside lineBreaks p (c :: input) = blockLookups outside lineBreaks p (c :: input) := by
  rw [lookups]
  split
  · exact List.append_nil _
  · next hok =>
    rw [h] at hok
    cases hok

theorem lookups_ok {out : List UInt8}
    (h : readBlock outside lineBreaks p (c :: input) = .ok (out, p', rest)) :
    lookups outside lineBreaks p (c :: input) =
      blockLookups outside lineBreaks p (c :: input) ++ lookups outside lineBreaks p' rest := by
  rw [lookups]
  split
  · next herror =>
    rw [h] at herror
    cases herror
  · next hok =>
    rw [h] at hok
    cases hok
    rfl

/-- `decode` is the automaton. -/
theorem decodeLoop_iff (outside : UInt8 → UInt8) (p : Nat) (input output : List UInt8) :
    ((∃ out, decodeLoop outside lineBreaks p input output = .ok out) ↔
      Accepts outside .boundary input) ∧
    lookups outside lineBreaks p input = looked outside .boundary input := by
  induction p, input, output using decodeLoop.induct outside lineBreaks with
  | case1 p output =>
    rw [decodeLoop, lookups]
    exact ⟨iff_of_true ⟨output, rfl⟩ (accepts_nil.mpr trivial), rfl⟩
  | case2 p output c input what hblock =>
    obtain ⟨haccepts, hlooked⟩ := boundary_iff outside (List.cons_ne_nil c input)
    obtain ⟨hnot, hlooked'⟩ := readBlock_error hblock
    rw [haccepts, hlooked, hlooked', lookups_error hblock]
    refine ⟨iff_of_false ?_ hnot, rfl⟩
    rintro ⟨out, hok⟩
    rw [decodeLoop] at hok
    split at hok
    · cases hok
    · next hok' =>
      rw [hblock] at hok'
      cases hok'
  | case3 p output c input out p' rest hblock ih =>
    obtain ⟨haccepts, hlooked⟩ := boundary_iff outside (List.cons_ne_nil c input)
    obtain ⟨haccepts', hlooked'⟩ := readBlock_ok hblock
    rw [decodeLoop_cons hblock, haccepts, haccepts', hlooked, hlooked', ← ih.2,
      lookups_ok hblock]
    exact ⟨ih.1, rfl⟩

end Simulation

end McpeLauncher.Base64

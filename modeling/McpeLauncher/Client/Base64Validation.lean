import Mathlib.Data.List.Induction
import McpeLauncher.Client.Base64Automaton

/-!
# What is decoded

Which texts `decode` accepts, by the groups of their characters.
-/

namespace McpeLauncher.Base64

/-! ## The texts -/

def Full (a b c d : UInt8) : Prop := a ∈ table ∧ b ∈ table ∧ c ∈ table ∧ d ∈ table

/-- A group, which may be padded. -/
def Group (a b c d : UInt8) : Prop :=
  a ∈ table ∧ b ∈ table ∧ ((c ∈ table ∧ (d ∈ table ∨ d = 61)) ∨ (c = 61 ∧ d = 61))

/-- A group that is cut to two or three characters. -/
def Cut (t : List UInt8) : Prop := ∃ a b c d, Group a b c d ∧ (t = [a, b] ∨ t = [a, b, c])

/-- Less than a group. -/
def Begun (t : List UInt8) : Prop := t = [] ∨ (∃ a ∈ table, t = [a]) ∨ Cut t

/-- The last group, if there is one. -/
def Last (t : List UInt8) : Prop :=
  t = [] ∨ (∃ a b c d, Group a b c d ∧ t = [a, b, c, d]) ∨ Cut t

/-- Groups, and what is behind them. -/
inductive Text (group : UInt8 → UInt8 → UInt8 → UInt8 → Prop) (last : List UInt8 → Prop) :
    List UInt8 → Prop
  | last {t : List UInt8} (h : last t) : Text group last t
  | group {a b c d : UInt8} {t : List UInt8} (h : group a b c d) (ht : Text group last t) :
    Text group last (a :: b :: c :: d :: t)

/-- What is to be accepted: groups of which only the last may be padded or cut, with line breaks. -/
def Valid (input : List UInt8) : Prop := Text Full Last (input.filter (· ∉ lineBreaks))

/-- The text without what `decode` skips, which are the line breaks and zeros. -/
def stripped (input : List UInt8) : List UInt8 := input.filter fun c => !isSkipped lineBreaks c

def EndsSkipped (input : List UInt8) : Prop := ∃ c ∈ input.getLast?, isSkipped lineBreaks c

/-- Groups of which any may be padded, with line breaks and zeros, but not behind the last group if
that is whole. -/
def Lenient (input : List UInt8) : Prop :=
  Text Group Cut (stripped input) ∨ (Text Group (· = []) (stripped input) ∧ ¬ EndsSkipped input)

section Grammar
variable {outside : UInt8 → UInt8} {s s' : State} {a b c d : UInt8} {t input : List UInt8} {n : Nat}
  {padded : Bool} {last : List UInt8 → Prop}

theorem lt_of_mem_table (h : c ∈ table) : c < 128 ∧ c ≠ 61 := by
  have hascii := List.all_eq_true.mp table_ascii c h
  rwa [Bool.and_eq_true, decide_eq_true_eq, bne_iff_ne] at hascii

theorem reverseTable_skipped (outside : UInt8 → UInt8) (h : isSkipped lineBreaks c = true) :
    reverseTable outside c = 255 ∧ c < 128 ∧ c ∉ table ∧ c ≠ 61 := by
  rw [isSkipped, Bool.or_eq_true, decide_eq_true_eq, decide_eq_true_eq, lineBreaks, List.mem_cons,
    List.mem_singleton] at h
  obtain rfl | rfl | rfl := h
  · exact ⟨rfl, by decide, by decide, by decide⟩
  · exact ⟨rfl, by decide, by decide, by decide⟩
  · exact ⟨rfl, by decide, by decide, by decide⟩

theorem reverseTable_table :
    table.all (fun c => reverseTable id c != 255 && reverseTable id c != 64) = true := by
  decide +kernel

theorem reverseTable_of_mem (outside : UInt8 → UInt8) (h : c ∈ table) :
    reverseTable outside c ≠ 255 ∧ reverseTable outside c ≠ 64 := by
  have hvalue := List.all_eq_true.mp reverseTable_table c h
  rw [Bool.and_eq_true, bne_iff_ne, bne_iff_ne] at hvalue
  rwa [← reverseTable_congr (lt_of_mem_table h).1] at hvalue

theorem reverseTable_of_not_mem (outside : UInt8 → UInt8) (hlt : c < 128) (hpad : c ≠ 61)
    (h : c ∉ table) :
    reverseTable outside c = 255 := by
  rw [reverseTable, if_neg (UInt8.not_le.mpr hlt), if_neg hpad, List.idxOf?_eq_none_iff.mpr h]

/-- What a step does with an ASCII character that is not skipped. -/
theorem digitStep_eq_some (hlt : c < 128) (hskipped : isSkipped lineBreaks c = false) :
    digitStep outside n padded c = some s ↔
      (c ∈ table ∧ ¬ (n = 3 ∧ padded = true) ∧ s = if n = 3 then .boundary else .digit (n + 1) false) ∨
      (c = 61 ∧ 2 ≤ n ∧ s = if n = 3 then .boundary else .digit (n + 1) true) := by
  by_cases htable : c ∈ table
  · obtain ⟨hvalue, hpad⟩ := reverseTable_of_mem outside htable
    have hne := (lt_of_mem_table htable).2
    simp only [digitStep, ne_eq, hvalue, not_false_eq_true, if_true, hpad, false_and, false_or,
      and_true, State.next, decide_false, htable, true_and, hne, or_false]
    by_cases hinvalid : n = 3 ∧ padded = true
    · rw [if_pos hinvalid]
      exact iff_of_false (Option.some_ne_none s).symm fun h => h.1 hinvalid
    · rw [if_neg hinvalid, Option.some_inj, and_iff_right hinvalid, eq_comm]
  · by_cases hpad : c = 61
    · subst hpad
      have hvalue : reverseTable outside 61 = 64 := rfl
      rw [or_iff_right fun h => htable h.1, and_iff_right rfl, digitStep, hvalue, if_pos (by decide)]
      by_cases hn : n < 2
      · rw [if_pos (.inl ⟨rfl, hn⟩)]
        exact iff_of_false (Option.some_ne_none s).symm fun h => Nat.not_lt_of_le h.1 hn
      · have hvalid : ¬ (((64 : UInt8) = 64 ∧ n < 2) ∨ (n = 3 ∧ padded = true ∧ (64 : UInt8) ≠ 64)) := by
          rintro (⟨-, hlt⟩ | ⟨-, -, hne⟩)
          · exact hn hlt
          · exact hne rfl
        rw [if_neg hvalid, Option.some_inj, and_iff_right (Nat.le_of_not_lt hn), eq_comm]
        rfl
    · have hvalue := reverseTable_of_not_mem outside hlt hpad htable
      simp [digitStep, hvalue, hskipped, htable, hpad]

/-- ASCII characters none of which is skipped. -/
def Plain (t : List UInt8) : Prop := ∀ c ∈ t, c < 128 ∧ isSkipped lineBreaks c = false

theorem step_boundary (h : c < 128 ∧ isSkipped lineBreaks c = false) :
    step outside .boundary c = some s ↔ c ∈ table ∧ s = .digit 1 false := by
  rw [step, digitStep_eq_some h.1 h.2]
  simp

theorem step_one (h : c < 128 ∧ isSkipped lineBreaks c = false) :
    step outside (.digit 1 padded) c = some s ↔ c ∈ table ∧ s = .digit 2 false := by
  rw [step, digitStep_eq_some h.1 h.2]
  simp

theorem step_two (h : c < 128 ∧ isSkipped lineBreaks c = false) :
    step outside (.digit 2 padded) c = some s ↔
      (c ∈ table ∨ c = 61) ∧ s = .digit 3 (decide (c = 61)) := by
  rw [step, digitStep_eq_some h.1 h.2]
  constructor
  · rintro (⟨hc, -, rfl⟩ | ⟨rfl, -, rfl⟩)
    · exact ⟨.inl hc, by simp [(lt_of_mem_table hc).2]⟩
    · exact ⟨.inr rfl, rfl⟩
  · rintro ⟨hc | rfl, rfl⟩
    · exact .inl ⟨hc, by simp, by simp [(lt_of_mem_table hc).2]⟩
    · exact .inr ⟨rfl, Nat.le_refl 2, rfl⟩

theorem step_three (h : c < 128 ∧ isSkipped lineBreaks c = false) :
    step outside (.digit 3 padded) c = some s ↔
      ((c ∈ table ∧ padded = false) ∨ c = 61) ∧ s = .boundary := by
  rw [step, digitStep_eq_some h.1 h.2]
  simp [or_and_right, and_assoc]

/-- The automaton reads a group from boundary to boundary. -/
theorem run_group (h : Plain (a :: b :: c :: d :: t)) :
    Runs.run (step outside) .boundary (a :: b :: c :: d :: t) = some s ↔
      Group a b c d ∧ Runs.run (step outside) .boundary t = some s := by
  have ha := h a (by simp)
  have hb := h b (by simp)
  have hc := h c (by simp)
  have hd := h d (by simp)
  simp only [Runs.run_cons, Option.bind_eq_some_iff, step_boundary ha]
  constructor
  · rintro ⟨_, ⟨ha', rfl⟩, _, h1, _, h2, _, h3, hrun⟩
    obtain ⟨hb', rfl⟩ := (step_one hb).mp h1
    obtain ⟨hc', rfl⟩ := (step_two hc).mp h2
    obtain ⟨hd', rfl⟩ := (step_three hd).mp h3
    refine ⟨⟨ha', hb', ?_⟩, hrun⟩
    rw [decide_eq_false_iff_not] at hd'
    obtain hc' | rfl := hc'
    · exact .inl ⟨hc', hd'.imp_left And.left⟩
    · exact .inr ⟨rfl, hd'.resolve_left fun hd' => hd'.2 rfl⟩
  · rintro ⟨⟨ha', hb', hcd⟩, hrun⟩
    have hc' : c ∈ table ∨ c = 61 := hcd.imp And.left And.left
    refine ⟨_, ⟨ha', rfl⟩, _, (step_one hb).mpr ⟨hb', rfl⟩, _, (step_two hc).mpr ⟨hc', rfl⟩, _,
      (step_three hd).mpr ⟨?_, rfl⟩, hrun⟩
    obtain ⟨hc', hd'⟩ | ⟨-, rfl⟩ := hcd
    · exact hd'.imp_left fun hd' => ⟨hd', decide_eq_false (lt_of_mem_table hc').2⟩
    · exact .inr rfl

theorem run_one (h : Plain [a]) : Runs.run (step outside) .boundary [a] = some s ↔
    a ∈ table ∧ s = .digit 1 false := by
  simp only [Runs.run_cons, Option.bind_eq_some_iff, step_boundary (h a (.head _)), Runs.run_nil]
  constructor
  · rintro ⟨_, ⟨ha, rfl⟩, hs⟩
    exact ⟨ha, (Option.some.inj hs).symm⟩
  · rintro ⟨ha, rfl⟩
    exact ⟨_, ⟨ha, rfl⟩, rfl⟩

theorem run_two (h : Plain [a, b]) : Runs.run (step outside) .boundary [a, b] = some s ↔
    a ∈ table ∧ b ∈ table ∧ s = .digit 2 false := by
  have hb := h b (.tail _ (.head _))
  simp only [Runs.run_cons, Option.bind_eq_some_iff, step_boundary (h a (.head _)), Runs.run_nil]
  constructor
  · rintro ⟨_, ⟨ha, rfl⟩, _, h1, hs⟩
    obtain ⟨hb', rfl⟩ := (step_one hb).mp h1
    exact ⟨ha, hb', (Option.some.inj hs).symm⟩
  · rintro ⟨ha, hb', rfl⟩
    exact ⟨_, ⟨ha, rfl⟩, _, (step_one hb).mpr ⟨hb', rfl⟩, rfl⟩

theorem run_three (h : Plain [a, b, c]) : Runs.run (step outside) .boundary [a, b, c] = some s ↔
    a ∈ table ∧ b ∈ table ∧ (c ∈ table ∨ c = 61) ∧ s = .digit 3 (decide (c = 61)) := by
  have hb := h b (.tail _ (.head _))
  have hc := h c (.tail _ (.tail _ (.head _)))
  simp only [Runs.run_cons, Option.bind_eq_some_iff, step_boundary (h a (.head _)), Runs.run_nil]
  constructor
  · rintro ⟨_, ⟨ha, rfl⟩, _, h1, _, h2, hs⟩
    obtain ⟨hb', rfl⟩ := (step_one hb).mp h1
    obtain ⟨hc', rfl⟩ := (step_two hc).mp h2
    exact ⟨ha, hb', hc', (Option.some.inj hs).symm⟩
  · rintro ⟨ha, hb', hc', rfl⟩
    exact ⟨_, ⟨ha, rfl⟩, _, (step_one hb).mpr ⟨hb', rfl⟩, _, (step_two hc).mpr ⟨hc', rfl⟩, rfl⟩

theorem text_group_iff {group : UInt8 → UInt8 → UInt8 → UInt8 → Prop}
    (hlast : ∀ t, last t → t.length < 4) :
    Text group last (a :: b :: c :: d :: t) ↔ group a b c d ∧ Text group last t := by
  constructor
  · intro h
    cases h with
    | last h => exact absurd (hlast _ h) (by simp)
    | group h ht => exact ⟨h, ht⟩
  · rintro ⟨h, ht⟩
    exact .group h ht

theorem text_short_iff {group : UInt8 → UInt8 → UInt8 → UInt8 → Prop} (hlen : t.length < 4) :
    Text group last t ↔ last t := by
  constructor
  · intro h
    cases h with
    | last h => exact h
    | group h ht => exact absurd hlen (by simp)
  · exact .last

/-- Where the automaton is behind a text, from where it is behind less than a group. -/
theorem run_text_iff (outside : UInt8 → UInt8) (S : State → Prop)
    (hlast : ∀ t, last t → t.length < 4)
    (hshort : ∀ t, t.length < 4 → Plain t →
      ((∃ s, Runs.run (step outside) .boundary t = some s ∧ S s) ↔ last t)) :
    ∀ t, Plain t →
      ((∃ s, Runs.run (step outside) .boundary t = some s ∧ S s) ↔ Text Group last t)
  | a :: b :: c :: d :: t, h => by
    rw [text_group_iff hlast, ← run_text_iff outside S hlast hshort t fun x hx => h x (by simp [hx])]
    simp only [run_group h, and_assoc]
    exact ⟨fun ⟨s, hgroup, hrun⟩ => ⟨hgroup, s, hrun⟩, fun ⟨hgroup, s, hrun⟩ => ⟨s, hgroup, hrun⟩⟩
  | [], h => (hshort [] (by simp) h).trans (text_short_iff (by simp)).symm
  | [a], h => (hshort [a] (by simp) h).trans (text_short_iff (by simp)).symm
  | [a, b], h => (hshort [a, b] (by simp) h).trans (text_short_iff (by simp)).symm
  | [a, b, c], h => (hshort [a, b, c] (by simp) h).trans (text_short_iff (by simp)).symm

theorem Cut.length_eq (h : Cut t) : t.length = 2 ∨ t.length = 3 := by
  obtain ⟨a, b, c, d, -, rfl | rfl⟩ := h
  · exact .inl rfl
  · exact .inr rfl

theorem cut_two : Cut [a, b] ↔ a ∈ table ∧ b ∈ table := by
  constructor
  · rintro ⟨_, _, _, _, ⟨ha, hb, -⟩, h | h⟩
    · cases h
      exact ⟨ha, hb⟩
    · cases h
  · rintro ⟨ha, hb⟩
    exact ⟨a, b, 61, 61, ⟨ha, hb, .inr ⟨rfl, rfl⟩⟩, .inl rfl⟩

theorem cut_three : Cut [a, b, c] ↔ a ∈ table ∧ b ∈ table ∧ (c ∈ table ∨ c = 61) := by
  constructor
  · rintro ⟨_, _, _, _, ⟨ha, hb, hcd⟩, h | h⟩
    · cases h
    · cases h
      exact ⟨ha, hb, hcd.imp And.left And.left⟩
  · rintro ⟨ha, hb, hc⟩
    refine ⟨a, b, c, 61, ⟨ha, hb, ?_⟩, .inr rfl⟩
    exact hc.imp (fun hc => ⟨hc, .inr rfl⟩) fun hc => ⟨hc, rfl⟩

theorem Begun.length_lt (h : Begun t) : t.length < 4 := by
  obtain rfl | ⟨a, -, rfl⟩ | h := h
  · exact Nat.zero_lt_succ 3
  · exact Nat.succ_lt_succ (Nat.zero_lt_succ 2)
  · have hlength := h.length_eq
    omega

theorem begun_iff_cut (ht : 1 < t.length) : Begun t ↔ Cut t := by
  rw [Begun, or_iff_right, or_iff_right]
  · rintro ⟨a, -, rfl⟩
    exact Nat.lt_irrefl 1 ht
  · rintro rfl
    exact Nat.not_lt_zero 1 ht

/-- Where the automaton is behind less than a group. -/
theorem run_short (outside : UInt8 → UInt8) (h : Plain t) (hlen : t.length < 4) :
    ((∃ s, Runs.run (step outside) .boundary t = some s) ↔ Begun t) ∧
    ∀ s, Runs.run (step outside) .boundary t = some s →
      (s = .boundary ↔ t = []) ∧ (s ≠ .boundary ∧ s.Final ↔ Cut t) := by
  have hempty : ¬ Cut [] := fun h => absurd h.length_eq (by simp)
  match t with
  | [] =>
    refine ⟨iff_of_true ⟨.boundary, rfl⟩ (.inl rfl), fun s hs => ?_⟩
    cases hs
    exact ⟨iff_of_true rfl rfl, iff_of_false (fun h => h.1 rfl) hempty⟩
  | [a] =>
    have hcut : ¬ Cut [a] := fun h => absurd h.length_eq (by simp)
    refine ⟨?_, fun s hs => ?_⟩
    · rw [Begun, or_iff_right (List.cons_ne_nil a []), or_iff_left hcut]
      exact ⟨fun ⟨s, hs⟩ => ⟨a, ((run_one h).mp hs).1, rfl⟩,
        fun ⟨b, hb, heq⟩ => ⟨_, (run_one h).mpr ⟨(List.cons.inj heq).1 ▸ hb, rfl⟩⟩⟩
    · obtain ⟨-, rfl⟩ := (run_one h).mp hs
      exact ⟨iff_of_false nofun nofun, iff_of_false (fun h => absurd h.2 (by simp [State.Final])) hcut⟩
  | [a, b] =>
    refine ⟨?_, fun s hs => ?_⟩
    · rw [begun_iff_cut (by simp), cut_two]
      exact ⟨fun ⟨s, hs⟩ => ⟨((run_two h).mp hs).1, ((run_two h).mp hs).2.1⟩,
        fun ⟨ha, hb⟩ => ⟨_, (run_two h).mpr ⟨ha, hb, rfl⟩⟩⟩
    · obtain ⟨ha, hb, rfl⟩ := (run_two h).mp hs
      exact ⟨iff_of_false nofun nofun,
        iff_of_true ⟨nofun, Nat.le_refl 2⟩ (cut_two.mpr ⟨ha, hb⟩)⟩
  | [a, b, c] =>
    refine ⟨?_, fun s hs => ?_⟩
    · rw [begun_iff_cut (by simp), cut_three]
      constructor
      · rintro ⟨s, hs⟩
        obtain ⟨ha, hb, hc, -⟩ := (run_three h).mp hs
        exact ⟨ha, hb, hc⟩
      · rintro ⟨ha, hb, hc⟩
        exact ⟨_, (run_three h).mpr ⟨ha, hb, hc, rfl⟩⟩
    · obtain ⟨ha, hb, hc, rfl⟩ := (run_three h).mp hs
      exact ⟨iff_of_false nofun nofun,
        iff_of_true ⟨nofun, Nat.le_succ 2⟩ (cut_three.mpr ⟨ha, hb, hc⟩)⟩
  | _ :: _ :: _ :: _ :: _ => exact absurd hlen (by simp)

/-- The automaton gets through the beginnings of texts. -/
theorem run_begun_iff (h : Plain t) :
    (∃ s, Runs.run (step outside) .boundary t = some s) ↔ Text Group Begun t := by
  rw [← run_text_iff outside (fun _ => True) (fun t ht => Begun.length_lt ht)
    (fun t hlen h => ?_) t h]
  · exact exists_congr fun s => (and_iff_left trivial).symm
  · rw [← (run_short outside h hlen).1]
    exact exists_congr fun s => and_iff_left trivial

theorem run_boundary_iff (outside : UInt8 → UInt8) (h : Plain t) :
    (∃ s, Runs.run (step outside) .boundary t = some s ∧ s = .boundary) ↔
      Text Group (· = []) t := by
  refine run_text_iff outside (· = .boundary) (fun t ht => ?_) (fun t hlen h => ?_) t h
  · subst ht
    exact Nat.zero_lt_succ 3
  · constructor
    · rintro ⟨s, hs, hboundary⟩
      exact (((run_short outside h hlen).2 s hs).1).mp hboundary
    · rintro rfl
      exact ⟨.boundary, rfl, rfl⟩

theorem run_cut_iff (outside : UInt8 → UInt8) (h : Plain t) :
    (∃ s, Runs.run (step outside) .boundary t = some s ∧ s ≠ .boundary ∧ s.Final) ↔
      Text Group Cut t := by
  refine run_text_iff outside (fun s => s ≠ .boundary ∧ s.Final) (fun t ht => ?_)
    (fun t hlen h => ?_) t h
  · have hlength := Cut.length_eq ht
    omega
  · obtain ⟨hbegun, hrun⟩ := run_short outside h hlen
    constructor
    · rintro ⟨s, hs, hcut⟩
      exact (hrun s hs).2.mp hcut
    · intro hcut
      obtain ⟨s, hs⟩ := hbegun.mpr (.inr (.inr hcut))
      exact ⟨s, hs, (hrun s hs).2.mpr hcut⟩

/-! ## What is skipped -/

/-- A skipped character only closes a boundary. -/
def State.opened : State → State
  | .boundary => .digit 0 false
  | .digit n padded => .digit n padded

theorem step_skipped (h : isSkipped lineBreaks c = true) :
    step outside s c = some s.opened := by
  have hdigit (n : Nat) (padded : Bool) : digitStep outside n padded c = some (.digit n padded) := by
    rw [digitStep, (reverseTable_skipped outside h).1, if_neg (by decide), if_pos h]
  cases s with
  | boundary => exact hdigit 0 false
  | digit n padded => exact hdigit n padded

theorem step_opened : step outside s.opened c = step outside s c := by
  cases s <;> rfl

theorem endsSkipped_append : EndsSkipped (input ++ [c]) ↔ isSkipped lineBreaks c = true := by
  rw [EndsSkipped, List.getLast?_concat]
  simp

theorem stripped_append : stripped (input ++ [c]) =
    stripped input ++ [c].filter fun c => !isSkipped lineBreaks c :=
  List.filter_append _ _

theorem run_concat : Runs.run (step outside) s (input ++ [c]) =
    (Runs.run (step outside) s input).bind fun s => step outside s c := by
  rw [Runs.run_append]
  refine congrArg _ (funext fun s => ?_)
  rw [Runs.run_cons]
  exact Option.bind_fun_some _

/-- The automaton on what is not skipped. -/
theorem run_stripped (input : List UInt8) :
    (EndsSkipped input → Runs.run (step outside) .boundary input =
      (Runs.run (step outside) .boundary (stripped input)).map State.opened) ∧
    (¬ EndsSkipped input → Runs.run (step outside) .boundary input =
      Runs.run (step outside) .boundary (stripped input)) := by
  induction input using List.reverseRecOn with
  | nil => exact ⟨fun ⟨_, h, _⟩ => (nomatch h), fun _ => rfl⟩
  | append_singleton input c ih =>
    -- skipped characters before it do not matter to the next character
    have hbind (c : UInt8) : (Runs.run (step outside) .boundary input).bind (step outside · c) =
        (Runs.run (step outside) .boundary (stripped input)).bind (step outside · c) := by
      by_cases hends : EndsSkipped input
      · rw [ih.1 hends, Option.bind_map]
        exact congrArg _ (funext fun s => step_opened)
      · rw [ih.2 hends]
    rw [endsSkipped_append, run_concat, hbind, stripped_append]
    constructor
    · intro hskipped
      have hnil : [c].filter (fun c => !isSkipped lineBreaks c) = [] := by simp [hskipped]
      rw [hnil, List.append_nil]
      simp only [step_skipped hskipped]
      exact Option.map_eq_bind.symm
    · intro hskipped
      have hself : [c].filter (fun c => !isSkipped lineBreaks c) = [c] := by simp [hskipped]
      rw [hself, run_concat]

theorem final_opened : s.opened.Final ↔ s ≠ .boundary ∧ s.Final := by
  cases s with
  | boundary => exact iff_of_false (by simp [State.opened, State.Final]) fun h => h.1 rfl
  | digit n padded => exact (and_iff_right (by simp)).symm

def Ascii (t : List UInt8) : Prop := ∀ c ∈ t, c < 128

theorem Ascii.plain (h : Ascii input) : Plain (stripped input) := by
  intro c hc
  obtain ⟨hmem, hskipped⟩ := List.mem_filter.mp hc
  exact ⟨h c hmem, by simpa using hskipped⟩

theorem reached_iff (h : Ascii input) :
    (∃ s, Runs.run (step outside) .boundary input = some s) ↔ Text Group Begun (stripped input) := by
  rw [← run_begun_iff h.plain]
  by_cases hends : EndsSkipped input
  · rw [(run_stripped input).1 hends]
    simp only [Option.map_eq_some_iff]
    exact ⟨fun ⟨_, s, hs, _⟩ => ⟨s, hs⟩, fun ⟨s, hs⟩ => ⟨s.opened, s, hs, rfl⟩⟩
  · rw [(run_stripped input).2 hends]

theorem accepts_iff (h : Ascii input) : Accepts outside .boundary input ↔ Lenient input := by
  rw [Lenient, ← run_cut_iff outside h.plain, ← run_boundary_iff outside h.plain, Accepts]
  by_cases hends : EndsSkipped input
  · rw [(run_stripped input).1 hends, or_iff_left fun h => h.2 hends]
    simp only [Option.map_eq_some_iff, ← final_opened]
    exact ⟨fun ⟨_, ⟨s, hs, heq⟩, hfinal⟩ => ⟨s, hs, heq ▸ hfinal⟩,
      fun ⟨s, hs, hfinal⟩ => ⟨s.opened, ⟨s, hs, rfl⟩, hfinal⟩⟩
  · rw [(run_stripped input).2 hends, and_iff_left hends, ← exists_or]
    refine exists_congr fun s => ?_
    rw [← and_or_left]
    refine and_congr_right fun _ => ?_
    by_cases hs : s = .boundary
    · subst hs
      exact iff_of_true trivial (.inr rfl)
    · exact ⟨fun hfinal => .inl ⟨hs, hfinal⟩, fun hor => (hor.resolve_right hs).2⟩

theorem looked_of_accepts (h : Accepts outside s input) : looked outside s input = input := by
  induction input generalizing s with
  | nil => rfl
  | cons c input ih =>
    obtain ⟨s', hstep, hrest⟩ := accepts_cons.mp h
    rw [looked_cons, hstep]
    exact congrArg (c :: ·) (ih hrest)

/-- The first character that is not ASCII is looked up if the automaton gets there. -/
theorem exists_looked_iff (outside : UInt8 → UInt8) (s : State) (input : List UInt8) :
    (∃ c ∈ looked outside s input, 128 ≤ c) ↔
    ∃ pre c post, input = pre ++ c :: post ∧ 128 ≤ c ∧ Ascii pre ∧
      ∃ s', Runs.run (step outside) s pre = some s' := by
  induction input generalizing s with
  | nil => exact iff_of_false (fun ⟨_, hc, _⟩ => nomatch hc) fun ⟨_, _, _, h, _⟩ => absurd h (by simp)
  | cons b input ih =>
    rw [looked_cons]
    by_cases hb : 128 ≤ b
    · exact iff_of_true ⟨b, .head _, hb⟩ ⟨[], b, input, rfl, hb, List.forall_mem_nil _, s, rfl⟩
    · have hsplit (pre post : List UInt8) (c : UInt8) (hc : 128 ≤ c)
          (heq : b :: input = pre ++ c :: post) : ∃ pre', pre = b :: pre' ∧ input = pre' ++ c :: post := by
        cases pre with
        | nil => exact absurd hc ((List.cons.inj heq).1 ▸ hb)
        | cons d pre =>
          obtain ⟨rfl, htail⟩ := List.cons.inj heq
          exact ⟨pre, rfl, htail⟩
      cases hstep : step outside s b with
      | none =>
        refine iff_of_false (fun ⟨c, hc, hhigh⟩ => hb (List.mem_singleton.mp hc ▸ hhigh)) ?_
        rintro ⟨pre, c, post, heq, hc, -, s', hrun⟩
        obtain ⟨pre, rfl, -⟩ := hsplit pre post c hc heq
        rw [Runs.run_cons, hstep] at hrun
        cases hrun
      | some t =>
        constructor
        · rintro ⟨c, hmem, hc⟩
          have hrest := (List.mem_cons.mp hmem).resolve_left fun heq => hb (heq ▸ hc)
          obtain ⟨pre, c', post, rfl, hc', hascii, s', hrun⟩ := (ih t).mp ⟨c, hrest, hc⟩
          refine ⟨b :: pre, c', post, rfl, hc', ?_, s', by rw [Runs.run_cons, hstep]; exact hrun⟩
          exact List.forall_mem_cons.mpr ⟨UInt8.not_le.mp hb, hascii⟩
        · rintro ⟨pre, c, post, heq, hc, hascii, s', hrun⟩
          obtain ⟨pre, rfl, hinput⟩ := hsplit pre post c hc heq
          rw [Runs.run_cons, hstep] at hrun
          obtain ⟨d, hmem, hd⟩ := (ih t).mpr ⟨pre, c, post, hinput, hc,
            (List.forall_mem_cons.mp hascii).2, s', hrun⟩
          exact ⟨d, .tail b hmem, hd⟩

theorem index_iff : (0 ≤ index c ∧ index c ≤ 255) ↔ c < 128 := by
  have hbmod : index c = (c.toNat : Int).bmod (2 ^ 8) := by
    rw [index, ← Int8.toInt_toBitVec, BitVec.toInt_eq_toNat_bmod]
    rfl
  have hlt := c.toNat_lt
  rw [hbmod, Int.bmod_def, UInt8.lt_iff_toNat_lt, show (128 : UInt8).toNat = 128 from rfl]
  split <;> omega

/-- The characters of groups. -/
def Known (c : UInt8) : Prop := c ∈ table ∨ c = 61

theorem Known.plain (h : Known c) : c < 128 ∧ isSkipped lineBreaks c = false := by
  have hskipped : isSkipped lineBreaks c = false := by
    refine Bool.eq_false_iff.mpr fun hskipped => ?_
    obtain ⟨-, -, htable, hpad⟩ := reverseTable_skipped id hskipped
    exact h.elim htable hpad
  refine ⟨?_, hskipped⟩
  obtain h | rfl := h
  · exact (lt_of_mem_table h).1
  · decide

theorem Group.known (h : Group a b c d) : ∀ x ∈ [a, b, c, d], Known x := by
  obtain ⟨ha, hb, hcd⟩ := h
  have hc : Known c := hcd.imp And.left And.left
  have hd : Known d := hcd.elim And.right fun h => .inr h.2
  simp [Known, ha, hb, show c ∈ table ∨ c = 61 from hc, show d ∈ table ∨ d = 61 from hd]

theorem Cut.known (h : Cut t) : ∀ x ∈ t, Known x := by
  obtain ⟨a, b, c, d, hgroup, rfl | rfl⟩ := h
  · exact fun x hx => hgroup.known x (List.mem_append_left [c, d] hx)
  · exact fun x hx => hgroup.known x (List.mem_append_left [d] hx)

theorem Begun.known (h : Begun t) : ∀ x ∈ t, Known x := by
  obtain rfl | ⟨a, ha, rfl⟩ | h := h
  · exact List.forall_mem_nil _
  · exact List.forall_mem_singleton.mpr (.inl ha)
  · exact h.known

theorem Last.known (h : Last t) : ∀ x ∈ t, Known x := by
  obtain rfl | ⟨a, b, c, d, hgroup, rfl⟩ | h := h
  · exact List.forall_mem_nil _
  · exact hgroup.known
  · exact h.known

theorem Full.group (h : Full a b c d) : Group a b c d :=
  ⟨h.1, h.2.1, .inl ⟨h.2.2.1, .inl h.2.2.2⟩⟩

theorem Text.known {group : UInt8 → UInt8 → UInt8 → UInt8 → Prop}
    (hgroup : ∀ a b c d, group a b c d → Group a b c d) (hlast : ∀ t, last t → ∀ c ∈ t, Known c)
    (h : Text group last t) : ∀ c ∈ t, Known c := by
  induction h with
  | last h => exact hlast _ h
  | group h _ ih =>
    intro x hx
    rw [show ∀ a b c d t, (a :: b :: c :: d :: t : List UInt8) = [a, b, c, d] ++ t from
      fun _ _ _ _ _ => rfl, List.mem_append] at hx
    exact hx.elim ((hgroup _ _ _ _ h).known x) (ih x)

/-- A text with known characters is ASCII if what is skipped of it is. -/
theorem ascii_of_stripped (h : ∀ c ∈ stripped input, Known c) : Ascii input := by
  intro c hc
  by_cases hskipped : isSkipped lineBreaks c = true
  · exact (reverseTable_skipped id hskipped).2.1
  · exact (h c (List.mem_filter.mpr ⟨hc, by simpa using hskipped⟩)).plain.1

theorem Lenient.ascii (h : Lenient input) : Ascii input := by
  refine ascii_of_stripped ?_
  obtain h | ⟨h, -⟩ := h
  · exact h.known (fun _ _ _ _ h => h) fun t ht => Cut.known ht
  · refine h.known (fun _ _ _ _ h => h) fun t (ht : t = []) => ?_
    rw [ht]
    exact List.forall_mem_nil _

theorem Valid.known (h : Valid input) : ∀ c ∈ input, c ∈ lineBreaks ∨ Known c := by
  intro c hc
  refine or_iff_not_imp_left.mpr fun hbreak => ?_
  refine Text.known (fun _ _ _ _ h => Full.group h) (fun t ht => Last.known ht) h c ?_
  exact List.mem_filter.mpr ⟨hc, by simpa using hbreak⟩

theorem stripped_eq (h : 0 ∉ input) : stripped input = input.filter (· ∉ lineBreaks) := by
  refine List.filter_congr fun c hc => ?_
  have hne : c ≠ 0 := fun heq => h (heq ▸ hc)
  simp [isSkipped, hne]

/-- No valid text has a zero. -/
theorem Valid.zero_notMem (h : Valid input) : 0 ∉ input := by
  intro hzero
  obtain hbreak | hknown := h.known 0 hzero
  · exact absurd hbreak (by decide)
  · exact absurd hknown.plain.2 (by decide)

theorem Valid.ascii (h : Valid input) : Ascii input := by
  intro c hc
  obtain hbreak | hknown := h.known c hc
  · obtain rfl | rfl : c = 13 ∨ c = 10 := by simpa [lineBreaks] using hbreak
    · decide
    · decide
  · exact hknown.plain.1

theorem text_full_last (h : Text Full Last t) : Text Group Cut t ∨ Text Group (· = []) t := by
  induction h with
  | last h =>
    obtain rfl | ⟨a, b, c, d, hgroup, rfl⟩ | h := h
    · exact .inr (.last rfl)
    · exact .inr (.group hgroup (.last rfl))
    · exact .inl (.last h)
  | group h _ ih => exact ih.imp (.group h.group) (.group h.group)

theorem valid_iff : Valid input ↔ 0 ∉ input ∧ Text Full Last (stripped input) := by
  constructor
  · intro h
    exact ⟨h.zero_notMem, (stripped_eq h.zero_notMem).symm ▸ h⟩
  · rintro ⟨hzero, h⟩
    rw [Valid, ← stripped_eq hzero]
    exact h

theorem not_cut_of_whole (h : Plain t) (hcut : Text Group Cut t) : ¬ Text Group (· = []) t := by
  rw [← run_cut_iff id h] at hcut
  rw [← run_boundary_iff id h]
  rintro ⟨s, hs, rfl⟩
  obtain ⟨s', hs', hne, -⟩ := hcut
  exact hne (Option.some.inj (hs'.symm.trans hs))

end Grammar

/-- What is decoded is right, and the table is looked up within its bounds, for the texts in which
what is not ASCII is behind a mistake, zeros and inner padding make no text of groups, and nothing
is skipped behind the last group if that is whole. -/
theorem decode_valid_iff (outside : UInt8 → UInt8) (input : List UInt8) :
    ((∀ c ∈ lookups outside lineBreaks 0 input, 0 ≤ index c ∧ index c ≤ 255) ∧
      ((∃ out, decode outside lineBreaks input = .ok out) ↔ Valid input)) ↔
    (∀ pre c post, input = pre ++ c :: post → 128 ≤ c → ¬ Text Group Begun (stripped pre)) ∧
    (Lenient input → 0 ∉ input ∧ Text Full Last (stripped input)) ∧
    (Valid input → Text Group (· = []) (stripped input) → ¬ EndsSkipped input) := by
  obtain ⟨haccepts, hlookups⟩ := decodeLoop_iff outside 0 input []
  rw [decode, haccepts, hlookups, ← valid_iff]
  simp only [index_iff]
  have hlooked := exists_looked_iff outside .boundary input
  constructor
  · rintro ⟨hascii, hvalid⟩
    refine ⟨fun pre c post hinput hc htext => ?_, fun hlenient => ?_, fun h hwhole hends => ?_⟩
    · have hpre : Ascii pre := ascii_of_stripped
        (htext.known (fun _ _ _ _ h => h) fun t ht => Begun.known ht)
      obtain ⟨d, hd, hhigh⟩ :=
        hlooked.mpr ⟨pre, c, post, hinput, hc, hpre, (reached_iff hpre).mpr htext⟩
      exact UInt8.not_le.mpr (hascii d hd) hhigh
    · exact hvalid.mp ((accepts_iff hlenient.ascii).mpr hlenient)
    · have hlenient := (accepts_iff h.ascii).mp (hvalid.mpr h)
      obtain hcut | ⟨-, hnot⟩ := hlenient
      · exact not_cut_of_whole h.ascii.plain hcut hwhole
      · exact hnot hends
  · rintro ⟨hhigh, hlenient, hends⟩
    have hascii : ∀ c ∈ looked outside .boundary input, c < 128 := by
      intro c hc
      by_contra hc'
      obtain ⟨pre, d, post, hinput, hd, hpre, hreached⟩ :=
        hlooked.mp ⟨c, hc, UInt8.not_lt.mp hc'⟩
      exact hhigh pre d post hinput hd ((reached_iff hpre).mp hreached)
    refine ⟨hascii, fun haccepted => ?_, fun h => ?_⟩
    · have hinput : Ascii input := by
        rw [Ascii, ← looked_of_accepts haccepted]
        exact hascii
      exact hlenient ((accepts_iff hinput).mp haccepted)
    · refine (accepts_iff h.ascii).mpr ?_
      obtain hcut | hwhole := text_full_last (valid_iff.mp h).2
      · exact .inl hcut
      · exact .inr ⟨hwhole, hends h hwhole⟩

/-- A line break behind a group is an error. -/
theorem decode_trailing : Valid [65, 65, 65, 65, 10] ∧
    decode id lineBreaks [65, 65, 65, 65, 10] = .error "Unexpected end of input" := by
  constructor
  · exact .group ⟨by decide, by decide, by decide, by decide⟩ (.last (.inl rfl))
  · have hblock : readBlock id lineBreaks 0 [65, 65, 65, 65, 10] = .ok ([0, 0, 0], 4, [10]) := by
      decide +kernel
    rw [decode, decodeLoop_cons hblock, decodeLoop]
    rfl

end McpeLauncher.Base64

import McpeLauncher.Launcher.CommandLine
import McpeLauncher.Profiles.ProfileManager

/-!
# Starting the game

`GameLauncher::start`: the arguments of the game, the command line of the profile and the program
that is started with them. A command line with `%command%` starts its own program, which gets the
launcher's path in the place of `%command%` and the arguments of the game at the end.
-/

namespace McpeLauncher.Launcher

open Profiles (ProfileInfo number)

structure ModInfo where
  name : Text
  version : Text
  arch : Text

/-- What the launcher asks the system for: the conversion of a `std::string`, the ABIs with the
names of their launchers in the order of the map, the files, the path of a launcher (empty if there
is none) and the folders of mods. -/
structure Host where
  fromStdString : Bytes → Text
  abis : List (Bytes × Bytes)
  fileExists : Text → Bool
  findLauncher : Bytes → Bytes
  loadModInfoByPath : Text → ModInfo
  getFolderPathForMod : Text → Text → Text → Text

structure GameLauncher where
  /-- `process` is not null. -/
  process : Bool := false
  crashed : Bool := false
  gameDir : Text
  profile : Option ProfileInfo
  disableGameLog : Bool := false

def text (s : String) : Text := s.toList

def placeholder : Text := text "%command%"

/-! ## The arguments -/

def modArgument (host : Host) (mod : Text) : Text :=
  let modInfo := host.loadModInfoByPath mod
  if modInfo.name = [] then mod
  else host.getFolderPathForMod modInfo.name modInfo.version modInfo.arch

def profileArgs (host : Host) (p : ProfileInfo) : List Text :=
  (if p.fields.dataDirCustom then [text "-dd", p.fields.dataDir] else []) ++
  (if p.fields.windowCustomSize then
    [text "-ww", number p.fields.windowWidth, text "-wh", number p.fields.windowHeight] else []) ++
  (if p.texturePatch ≠ 0 then [text "-tp", if p.texturePatch = 1 then text "1" else text "0"]
    else []) ++
  if p.fields.mods = [] then []
  else [text "-m", [','].intercalate (p.fields.mods.map (modArgument host))]

namespace GameLauncher

def running (g : GameLauncher) : Bool := g.process && !g.crashed

/-- The arguments of the game. -/
def args (g : GameLauncher) (host : Host) (hasVerifiedLicense : Bool) (filepath : Text) :
    List Text :=
  (if g.gameDir = [] then [] else [text "-dg", g.gameDir]) ++
  (if filepath = [] then [] else [text "--import-file-path", filepath]) ++
  (if hasVerifiedLicense then [] else [text "--free-only"]) ++
  match g.profile with
  | none => []
  | some p => profileArgs host p

/-- The arguments of the profile's command line. -/
def cargs (g : GameLauncher) (host : Host) : List Text :=
  match g.profile with
  | none => []
  | some p => (split (Utf8.encode p.fields.commandline)).map host.fromStdString

end GameLauncher

/-! ## The program -/

/-- `QList::indexOf`. -/
def indexOf (l : List Text) (x : Text) : Int :=
  match l.idxOf? x with
  | none => -1
  | some i => i

/-- What is kept for the start: where the launcher's path goes among the arguments, or -1. -/
structure Command where
  hasCustomInterpreter : Int
  customExecutable : Text
  args : List Text

def Command.new (cargs args : List Text) : Command :=
  let hasCustomInterpreter := indexOf cargs placeholder
  if hasCustomInterpreter ≠ -1 then
    { hasCustomInterpreter := hasCustomInterpreter - 1
      customExecutable := cargs.headD []
      args := cargs.tail ++ args }
  else { hasCustomInterpreter, customExecutable := [], args := args ++ cargs }

/-- The program and its arguments. -/
def Command.launch (c : Command) (executable : Text) : Text × List Text :=
  if c.hasCustomInterpreter ≠ -1 then
    (c.customExecutable, c.args.set c.hasCustomInterpreter.toNat executable)
  else (executable, c.args)

def quoted (s : Text) : Text := '"' :: s ++ ['"']

/-- The line that is logged, with the environment of the profile in front. -/
def getCommandLine (env : List (Text × Text)) (executable : Text) (args : List Text) : Text :=
  [' '].intercalate ((env.map fun e => quoted (e.1 ++ '=' :: e.2)) ++
    quoted executable :: args.map quoted) ++ text "\n"

def launcherNotFound (abi launchername : Text) : Text :=
  text "Could not find the gamelauncher for Minecraft (" ++ abi ++
    text ")\nPlease add the launcher '" ++ launchername ++
    text "' to your 'PATH' (environmentvariable) and restart the launcher\n"

inductive Outcome
  /-- The game runs already. -/
  | running
  | started (program : Text) (args : List Text) (log : Text)
  | failed (log errors : Text)

namespace GameLauncher

def env (g : GameLauncher) : List (Text × Text) :=
  match g.profile with
  | none => []
  | some p => p.fields.env.entries

/-- The game has a library for the ABI, which is the one that was asked for. -/
def hasLibrary (g : GameLauncher) (host : Host) (arch : Text) (abi : Bytes) : Bool :=
  (Utf8.encode arch = [] || Utf8.encode arch = abi) &&
    host.fileExists (g.gameDir ++ text "/lib/" ++ host.fromStdString abi ++
      text "/libminecraftpe.so")

/-- The loop over the ABIs: the first one with a library and a launcher is started. -/
def tryAbis (g : GameLauncher) (host : Host) (arch : Text) (c : Command) (errormsg : Text) :
    List (Bytes × Bytes) → Outcome
  | [] =>
    .failed (getCommandLine g.env (text "mcpelauncher-client") c.args)
      (errormsg ++ text "Game not found\n")
  | (abi, launchername) :: abis =>
    if g.hasLibrary host arch abi then
      let launcherpath := host.findLauncher launchername
      if launcherpath ≠ [] then
        let started := c.launch (host.fromStdString launcherpath)
        .started started.1 started.2 (getCommandLine g.env started.1 started.2)
      else
        g.tryAbis host arch c (errormsg ++
          launcherNotFound (host.fromStdString abi) (host.fromStdString launchername)) abis
    else g.tryAbis host arch c errormsg abis

def start (g : GameLauncher) (host : Host) (arch : Text) (hasVerifiedLicense : Bool)
    (filepath : Text) : Outcome :=
  if g.running then .running
  else
    g.tryAbis host arch (.new (g.cargs host) (g.args host hasVerifiedLicense filepath)) [] host.abis

end GameLauncher

/-! ## What is started -/

/-- The program and its arguments as one list. -/
def commandWords (cargs args : List Text) (launcher : Text) : List Text :=
  if cargs.contains placeholder then cargs.replace placeholder launcher ++ args
  else launcher :: args ++ cargs

section Launch

variable {pre post args : List Text}

theorem indexOf_append (h : placeholder ∉ pre) :
    indexOf (pre ++ placeholder :: post) placeholder = pre.length := by
  have hidx : (pre ++ placeholder :: post).idxOf? placeholder = some pre.length := by
    induction pre with
    | nil => rfl
    | cons w pre ih =>
      rw [List.mem_cons, not_or] at h
      rw [List.cons_append, List.idxOf?_cons, if_neg (by simpa using Ne.symm h.1), ih h.2]
      rfl
  rw [indexOf, hidx]

theorem new_of_mem (h : placeholder ∉ pre) (args : List Text) :
    Command.new (pre ++ placeholder :: post) args =
      { hasCustomInterpreter := pre.length - 1
        customExecutable := (pre ++ placeholder :: post).headD []
        args := (pre ++ placeholder :: post).tail ++ args } := by
  have hindex : (pre.length : Int) ≠ -1 := by omega
  unfold Command.new
  rw [indexOf_append h, if_pos hindex]

/-- The first `%command%` is replaced, also if it is the program. -/
theorem launch_of_mem (h : placeholder ∉ pre) (args : List Text) (launcher : Text) :
    let started := (Command.new (pre ++ placeholder :: post) args).launch launcher
    started.1 :: started.2 = pre ++ launcher :: post ++ args := by
  intro started
  simp only [started, new_of_mem h]
  cases pre with
  | nil => rfl
  | cons w pre =>
    have hcustom : ((w :: pre).length : Int) - 1 = pre.length := by simp
    have hne : (pre.length : Int) ≠ -1 := by omega
    rw [hcustom, Command.launch, if_pos hne, Int.toNat_natCast]
    simp

theorem launch_of_not_mem {cargs : List Text} (h : placeholder ∉ cargs) (launcher : Text) :
    (Command.new cargs args).launch launcher = (launcher, args ++ cargs) := by
  have hindex : indexOf cargs placeholder = -1 := by
    rw [indexOf, List.idxOf?_eq_none_iff.mpr h]
  simp only [Command.new, hindex]
  rfl

/-- The program and its arguments, for every place of `%command%`. -/
theorem launch_words (cargs args : List Text) (launcher : Text) :
    let started := (Command.new cargs args).launch launcher
    started.1 :: started.2 = commandWords cargs args launcher := by
  by_cases h : placeholder ∈ cargs
  · obtain ⟨pre, post, rfl, hpre⟩ := List.eq_append_cons_of_mem h
    rw [commandWords, if_pos (List.contains_iff_mem.mpr h), List.replace_append_right hpre, List.replace_cons_self]
    exact launch_of_mem hpre args launcher
  · rw [commandWords, if_neg (mt List.contains_iff_mem.mp h), launch_of_not_mem h]
    rfl

end Launch

namespace GameLauncher

/-- The ABI whose launcher is started. -/
def startedAbi (g : GameLauncher) (host : Host) (arch : Text) : Option (Bytes × Bytes) :=
  host.abis.find? fun e => g.hasLibrary host arch e.1 && host.findLauncher e.2 ≠ []

theorem tryAbis_of_find {g : GameLauncher} {host : Host} {arch : Text} {e : Bytes × Bytes}
    {abis : List (Bytes × Bytes)}
    (h : abis.find? (fun e => g.hasLibrary host arch e.1 && host.findLauncher e.2 ≠ []) = some e)
    (c : Command) (errormsg : Text) :
    let started := c.launch (host.fromStdString (host.findLauncher e.2))
    g.tryAbis host arch c errormsg abis =
      .started started.1 started.2 (getCommandLine g.env started.1 started.2) := by
  induction abis generalizing errormsg with
  | nil => cases h
  | cons e' abis ih =>
    rw [tryAbis]
    by_cases hlibrary : g.hasLibrary host arch e'.1
    · rw [if_pos hlibrary]
      by_cases hlauncher : host.findLauncher e'.2 ≠ []
      · rw [List.find?_cons_of_pos (by simp [hlibrary, hlauncher])] at h
        cases h
        exact if_pos hlauncher
      · rw [List.find?_cons_of_neg (by simp [hlauncher])] at h
        exact (if_neg hlauncher).trans (ih h _)
    · rw [List.find?_cons_of_neg (by simp [hlibrary])] at h
      rw [if_neg hlibrary]
      exact ih h errormsg

/-- The program that is started for an ABI, with its arguments. -/
theorem start_of_startedAbi {g : GameLauncher} {host : Host} {arch : Text} {e : Bytes × Bytes}
    (hrunning : g.running = false) (h : g.startedAbi host arch = some e)
    (hasVerifiedLicense : Bool) (filepath : Text) :
    ∃ program args log, g.start host arch hasVerifiedLicense filepath = .started program args log ∧
      program :: args = commandWords (g.cargs host) (g.args host hasVerifiedLicense filepath)
        (host.fromStdString (host.findLauncher e.2)) := by
  have hstart : g.start host arch hasVerifiedLicense filepath =
      g.tryAbis host arch (.new (g.cargs host) (g.args host hasVerifiedLicense filepath)) []
        host.abis := by
    rw [start, hrunning]
    rfl
  exact ⟨_, _, _, hstart.trans (tryAbis_of_find h _ _), launch_words _ _ _⟩

/-- Quoted arguments are found as they were, and the game is started with the words of the command
line and its own arguments. -/
theorem commandLine_start (host : Host) :
    (∀ ws text, CommandLine ws text →
      (∀ w ∈ ws, w ≠ [] ∧ host.fromStdString (Utf8.encode w) = w) →
      (split (Utf8.encode text)).map host.fromStdString = ws) ∧
    (∀ cargs args launcher,
      let started := (Command.new cargs args).launch launcher
      started.1 :: started.2 = commandWords cargs args launcher) ∧
    ∀ (g : GameLauncher) arch hasVerifiedLicense filepath e, g.running = false →
      g.startedAbi host arch = some e →
      ∃ program args log, g.start host arch hasVerifiedLicense filepath =
          .started program args log ∧
        program :: args = commandWords (g.cargs host) (g.args host hasVerifiedLicense filepath)
          (host.fromStdString (host.findLauncher e.2)) := by
  refine ⟨fun ws text htext hws => ?_, launch_words, fun g arch hasVerifiedLicense filepath e
    hrunning he => start_of_startedAbi hrunning he hasVerifiedLicense filepath⟩
  rw [split_commandLine htext fun w hw => (hws w hw).1, List.map_map]
  exact (List.map_congr_left fun w hw => (hws w hw).2).trans (List.map_id ws)

/-- A wrapper of the game, and an argument with a quote and a blank. -/
theorem commandLine_start_wrapper :
    let host : Host :=
      { fromStdString := fun s => s.map fun b => Char.ofNat b.toNat
        abis := [([120], [108])], fileExists := fun _ => true, findLauncher := fun _ => [76]
        loadModInfoByPath := fun _ => ⟨[], [], []⟩, getFolderPathForMod := fun _ _ _ => [] }
    let ws := [text "a\" b", placeholder]
    let line := [' '].intercalate (ws.map quoteArgument)
    let g : GameLauncher :=
      { gameDir := text "/g", profile := some { id := 0, name := [], fields.commandline := line } }
    (split (Utf8.encode line)).map host.fromStdString = ws ∧
      ∃ program args log, g.start host [] true [] = .started program args log ∧
        program :: args = [text "a\" b", text "L", text "-dg", text "/g"] := by
  intro host ws line g
  obtain ⟨hsplit, -, hstart⟩ := commandLine_start host
  have hcargs : (split (Utf8.encode line)).map host.fromStdString = ws := by
    refine hsplit ws line (CommandLine.intercalate ws) fun w hw => ?_
    simp only [ws, List.mem_cons, List.not_mem_nil, or_false] at hw
    obtain rfl | rfl := hw <;> exact ⟨by decide, by rfl⟩
  have hargs : g.args host true [] = [text "-dg", text "/g"] := by
    simp [GameLauncher.args, profileArgs, g, text]
  obtain ⟨program, args, log, hstarted, hwords⟩ := hstart g [] true [] ([120], [108]) rfl rfl
  refine ⟨hcargs, program, args, log, hstarted, ?_⟩
  have hg : g.cargs host = ws := hcargs
  rw [hwords, hg, hargs]
  have hlauncher : host.fromStdString (host.findLauncher [108]) = text "L" := rfl
  rw [hlauncher]
  decide

end GameLauncher

end McpeLauncher.Launcher

import LinkManagement.Lib.Decimal
import LinkManagement.Video.RunServer

/-!
# The command line of the video program, and of the android server

`main` of `VideoServer/src/video.c`.  Its loop looks at every argument, the name of the program and the
values of other options included, and takes the argument behind `-p` and `-ip` for a value without
looking whether there is one: behind the last argument it finds `NULL`, which `atoi` and the printing of
the address do not take.  `none` is for that, and for a number that is no `int`, of which `atoi` promises
nothing; behind `-p abc` it reads the number 0.

* `checkOptions_eq` — what the loop makes of any arguments;
* `video_main` — what `main` does with any command line;
* `usage_round_trip` — a command line written as the help text says is understood;
* `androidMain_eq` — `main` of `androidServer/src/androidServer.c` takes the first port it finds.
-/

namespace LinkManagement.CommandLine

open LinkManagement.Decimal LinkManagement.Connection LinkManagement.RunServer

/-- An argument, without its terminator. -/
abbrev Arg := List UInt8

/-- "-h", "-s", "-c", "-p", "-ip", "-d", "-nf" and "-iperf". -/
def helpArg : Arg := [45, 104]
def serverArg : Arg := [45, 115]
def clientArg : Arg := [45, 99]
def portArg : Arg := [45, 112]
def ipArg : Arg := [45, 105, 112]
def debugArg : Arg := [45, 100]
def noFifoArg : Arg := [45, 110, 102]
def iperfArg : Arg := [45, 105, 112, 101, 114, 102]

/-- `SERVER_PORT`. -/
def serverPortDefault : ℤ := 1337

/-- `SERVER_IP`, "127.0.0.1". -/
def serverIpDefault : Arg := [49, 50, 55, 46, 48, 46, 48, 46, 49]

/-- `RUN_DEBUG`, of `enum client_options`. -/
def runDebug : BitVec 32 := 1

/-- The variables of `main`; `serverIP` is `none` for `NULL`. -/
structure Settings where
  serverPort : ℤ
  serverIP : Option Arg
  clientOptions : BitVec 32
  serverOptions : BitVec 32
  deriving DecidableEq

def Settings.default : Settings := ⟨serverPortDefault, some serverIpDefault, 0, 0⟩

/-- One iteration of the loop; `next` is the argument behind `arg`, or `NULL`. -/
def checkOption (s : Settings) (arg : Arg) (next : Option Arg) : Option Settings :=
  (if arg = portArg then (next.bind atoi).map fun port => { s with serverPort := port } else some s).map
    fun s =>
      let s := if arg = ipArg then { s with serverIP := next } else s
      let s := if arg = debugArg then { s with clientOptions := s.clientOptions ||| runDebug } else s
      let s := if arg = noFifoArg then
        { s with serverOptions := s.serverOptions ||| ServerOption.noFifo.code } else s
      if arg = iperfArg then
        { s with serverOptions := s.serverOptions ||| ServerOption.serverRunIperf.code } else s

def checkOptions (s : Settings) : List Arg → Option Settings
  | [] => some s
  | arg :: rest => (checkOption s arg rest.head?).bind fun s => checkOptions s rest

inductive Command where
  | printHelp
  | runServer (serverPort : ℤ) (options : BitVec 32)
  | runClient (serverIP : Arg) (serverPort : ℤ) (options : BitVec 32)
  | nothing
  deriving DecidableEq

/-- `main`, on `argv`.  `run_client` prints the address. -/
def videoMain (argv : List Arg) : Option Command :=
  match argv with
  | [] => none
  | [_] => some .printHelp
  | _ :: mode :: _ =>
      if mode = helpArg then some .printHelp
      else
        (checkOptions .default argv).bind fun s =>
          if mode = serverArg then some (.runServer s.serverPort s.serverOptions)
          else if mode = clientArg then
            s.serverIP.map fun ip => .runClient ip s.serverPort s.clientOptions
          else some .nothing

/-! ### What the loop computes -/

/-- What stands behind each occurrence of the argument. -/
def following (opt : Arg) : List Arg → List (Option Arg)
  | [] => []
  | arg :: rest => if arg = opt then rest.head? :: following opt rest else following opt rest

def ports (args : List Arg) : List ℤ := (following portArg args).filterMap fun v => v.bind atoi

/-- Behind every `-p` there is an argument, and the number that `atoi` reads at its start, 0 if there is
none, is an `int`. -/
def PortsOk (args : List Arg) : Prop := ∀ v ∈ following portArg args, v.bind atoi ≠ none

instance (args : List Arg) : Decidable (PortsOk args) := by
  unfold PortsOk
  infer_instance

/-- The bit of an option, if the argument is there. -/
def flag (opt : Arg) (bit : BitVec 32) (args : List Arg) : BitVec 32 := if opt ∈ args then bit else 0

/-- The last value of each option, and all flags. -/
def settled (s : Settings) (args : List Arg) : Settings where
  serverPort := (ports args).getLast?.getD s.serverPort
  serverIP := (following ipArg args).getLast?.getD s.serverIP
  clientOptions := s.clientOptions ||| flag debugArg runDebug args
  serverOptions := s.serverOptions ||| flag noFifoArg ServerOption.noFifo.code args |||
    flag iperfArg ServerOption.serverRunIperf.code args

theorem following_cons_self (opt : Arg) (rest : List Arg) :
    following opt (opt :: rest) = rest.head? :: following opt rest := by
  rw [following, if_pos rfl]

theorem following_cons_of_ne {opt arg : Arg} (h : arg ≠ opt) (rest : List Arg) :
    following opt (arg :: rest) = following opt rest := by
  rw [following, if_neg h]

theorem flag_cons_self (opt : Arg) (bit : BitVec 32) (rest : List Arg) :
    flag opt bit (opt :: rest) = bit := by
  rw [flag, if_pos (by simp)]

theorem flag_cons_of_ne {opt arg : Arg} (h : arg ≠ opt) (bit : BitVec 32) (rest : List Arg) :
    flag opt bit (arg :: rest) = flag opt bit rest := by
  simp [flag, Ne.symm h]

theorem or_flag (opt : Arg) (bit : BitVec 32) (args : List Arg) :
    bit ||| flag opt bit args = bit := by
  rw [flag]
  split
  · exact BitVec.or_self
  · exact BitVec.or_zero

/-- The loop looks at an argument for one option at most. -/
theorem checkOption_eq (s : Settings) (arg : Arg) (next : Option Arg) :
    checkOption s arg next =
      if arg = portArg then (next.bind atoi).map fun port => { s with serverPort := port }
      else if arg = ipArg then some { s with serverIP := next }
      else if arg = debugArg then some { s with clientOptions := s.clientOptions ||| runDebug }
      else if arg = noFifoArg then
        some { s with serverOptions := s.serverOptions ||| ServerOption.noFifo.code }
      else if arg = iperfArg then
        some { s with serverOptions := s.serverOptions ||| ServerOption.serverRunIperf.code }
      else some s := by
  have hip : ipArg ≠ portArg := by decide
  have hdebug : debugArg ≠ portArg ∧ debugArg ≠ ipArg := by decide
  have hnoFifo : noFifoArg ≠ portArg ∧ noFifoArg ≠ ipArg ∧ noFifoArg ≠ debugArg := by decide
  have hiperf : iperfArg ≠ portArg ∧ iperfArg ≠ ipArg ∧ iperfArg ≠ debugArg ∧ iperfArg ≠ noFifoArg := by
    decide
  rw [checkOption]
  by_cases h₁ : arg = portArg
  · subst h₁
    simp [hip.symm, hdebug.1.symm, hnoFifo.1.symm, hiperf.1.symm]
  by_cases h₂ : arg = ipArg
  · subst h₂
    simp [hip, hdebug.2.symm, hnoFifo.2.1.symm, hiperf.2.1.symm]
  by_cases h₃ : arg = debugArg
  · subst h₃
    simp [hdebug, hnoFifo.2.2.symm, hiperf.2.2.1.symm]
  by_cases h₄ : arg = noFifoArg
  · subst h₄
    simp [hnoFifo, hiperf.2.2.2.symm]
  · simp [h₁, h₂, h₃, h₄]
    split <;> rfl

theorem ports_cons_of_ne {arg : Arg} (h : arg ≠ portArg) (rest : List Arg) :
    ports (arg :: rest) = ports rest ∧ (PortsOk (arg :: rest) ↔ PortsOk rest) := by
  rw [ports, ports, PortsOk, PortsOk, following_cons_of_ne h]
  exact ⟨rfl, Iff.rfl⟩

theorem ports_cons_self {rest : List Arg} {port : ℤ} (h : rest.head?.bind atoi = some port) :
    ports (portArg :: rest) = port :: ports rest ∧ (PortsOk (portArg :: rest) ↔ PortsOk rest) := by
  have hne : rest.head?.bind atoi ≠ none := by
    rw [h]
    simp
  rw [ports, ports, PortsOk, PortsOk, following_cons_self, List.filterMap_cons, h, List.forall_mem_cons]
  exact ⟨rfl, and_iff_right hne⟩

/-- An iteration on an argument that is not `-p` does its part of what is settled in the end. -/
theorem checkOption_settled {arg : Arg} (h : arg ≠ portArg) (s : Settings) (rest : List Arg) :
    ∃ s', checkOption s arg rest.head? = some s' ∧ settled s' rest = settled s (arg :: rest) := by
  have hports := (ports_cons_of_ne h rest).1
  rw [checkOption_eq, if_neg h]
  by_cases hip : arg = ipArg
  · subst hip
    have hne : debugArg ≠ ipArg ∧ noFifoArg ≠ ipArg ∧ iperfArg ≠ ipArg := by decide
    refine ⟨_, if_pos rfl, ?_⟩
    simp only [settled, hports, following_cons_self, List.getLast?_cons, Option.getD_some,
      flag_cons_of_ne hne.1.symm, flag_cons_of_ne hne.2.1.symm, flag_cons_of_ne hne.2.2.symm]
  rw [if_neg hip]
  by_cases hdebug : arg = debugArg
  · subst hdebug
    have hne : noFifoArg ≠ debugArg ∧ iperfArg ≠ debugArg := by decide
    refine ⟨_, if_pos rfl, ?_⟩
    simp only [settled, hports, following_cons_of_ne hip, flag_cons_self, BitVec.or_assoc, or_flag,
      flag_cons_of_ne hne.1.symm, flag_cons_of_ne hne.2.symm]
  rw [if_neg hdebug]
  by_cases hnoFifo : arg = noFifoArg
  · subst hnoFifo
    have hne : iperfArg ≠ noFifoArg := by decide
    refine ⟨_, if_pos rfl, ?_⟩
    simp only [settled, hports, following_cons_of_ne hip, flag_cons_self, BitVec.or_assoc,
      flag_cons_of_ne hdebug, flag_cons_of_ne hne.symm]
    rw [← BitVec.or_assoc ServerOption.noFifo.code, or_flag]
  rw [if_neg hnoFifo]
  by_cases hiperf : arg = iperfArg
  · subst hiperf
    refine ⟨_, if_pos rfl, ?_⟩
    simp only [settled, hports, following_cons_of_ne hip, flag_cons_self, BitVec.or_assoc,
      flag_cons_of_ne hdebug, flag_cons_of_ne hnoFifo]
    rw [← BitVec.or_assoc ServerOption.serverRunIperf.code, BitVec.or_comm _ (flag noFifoArg _ rest),
      BitVec.or_assoc, or_flag]
  · refine ⟨_, if_neg hiperf, ?_⟩
    simp only [settled, hports, following_cons_of_ne hip, flag_cons_of_ne hdebug,
      flag_cons_of_ne hnoFifo, flag_cons_of_ne hiperf]

theorem checkOption_port {rest : List Arg} {port : ℤ} (h : rest.head?.bind atoi = some port)
    (s : Settings) : ∃ s', checkOption s portArg rest.head? = some s' ∧
      settled s' rest = settled s (portArg :: rest) := by
  have hne : ipArg ≠ portArg ∧ debugArg ≠ portArg ∧ noFifoArg ≠ portArg ∧ iperfArg ≠ portArg := by
    decide
  refine ⟨{ s with serverPort := port }, by rw [checkOption_eq, if_pos rfl, h, Option.map_some], ?_⟩
  simp only [settled, (ports_cons_self h).1, List.getLast?_cons, Option.getD_some,
    following_cons_of_ne hne.1.symm, flag_cons_of_ne hne.2.1.symm, flag_cons_of_ne hne.2.2.1.symm,
    flag_cons_of_ne hne.2.2.2.symm]

/-- **What the loop makes of any arguments**: it is defined if there is a number behind every `-p`, and
then the last value of an option counts. -/
theorem checkOptions_eq (s : Settings) (args : List Arg) :
    checkOptions s args = if PortsOk args then some (settled s args) else none := by
  induction args generalizing s with
  | nil =>
    have hok : PortsOk [] := by simp [PortsOk, following]
    simp [checkOptions, hok, settled, ports, following, flag]
  | cons arg rest ih =>
    rw [checkOptions]
    by_cases hport : arg = portArg
    · subst hport
      cases hvalue : rest.head?.bind atoi with
      | none =>
        have hnot : ¬ PortsOk (portArg :: rest) := by
          rw [PortsOk, following_cons_self]
          exact fun hok => hok _ (by simp) hvalue
        rw [checkOption_eq, if_pos rfl, hvalue, if_neg hnot]
        rfl
      | some port =>
        obtain ⟨s', hs', hsettled⟩ := checkOption_port hvalue s
        rw [hs', Option.bind_some, ih, hsettled]
        simp only [(ports_cons_self hvalue).2]
    · obtain ⟨s', hs', hsettled⟩ := checkOption_settled hport s rest
      rw [hs', Option.bind_some, ih, hsettled]
      simp only [(ports_cons_of_ne hport rest).2]

/-! ### What `main` does -/

/-- `main` calls `run_server(port, options)`: `-s` is the first argument, there is a number behind every
`-p`, and the last of them is the port. -/
structure StartsServer (argv : List Arg) (port : ℤ) (options : BitVec 32) : Prop where
  mode : argv[1]? = some serverArg
  portsOk : PortsOk argv
  port_eq : port = (ports argv).getLast?.getD serverPortDefault
  options_eq : options = flag noFifoArg ServerOption.noFifo.code argv |||
    flag iperfArg ServerOption.serverRunIperf.code argv
  noFifo : isOptionSet options ServerOption.noFifo.code = decide (noFifoArg ∈ argv)
  iperf : isOptionSet options ServerOption.serverRunIperf.code = decide (iperfArg ∈ argv)

/-- `main` calls `run_client(ip, port, options)`: besides, there is an address behind the last `-ip`. -/
structure StartsClient (argv : List Arg) (ip : Arg) (port : ℤ) (options : BitVec 32) : Prop where
  mode : argv[1]? = some clientArg
  portsOk : PortsOk argv
  ip_eq : (following ipArg argv).getLast?.getD (some serverIpDefault) = some ip
  port_eq : port = (ports argv).getLast?.getD serverPortDefault
  options_eq : options = flag debugArg runDebug argv
  debug : isOptionSet options runDebug = decide (debugArg ∈ argv)

/-- What `main` does is not defined: there are no arguments, not even the program's name, or there is a
mode, and behind a `-p` no argument or a number that is no `int` or, for the client, behind the last `-ip`
no address. -/
def GoesWrong (argv : List Arg) : Prop :=
  argv = [] ∨ ∃ mode, argv[1]? = some mode ∧ mode ≠ helpArg ∧
    (¬ PortsOk argv ∨ mode = clientArg ∧ (following ipArg argv).getLast? = some none)

theorem videoMain_mode (prog mode : Arg) (rest : List Arg) :
    videoMain (prog :: mode :: rest) =
      if mode = helpArg then some .printHelp
      else if PortsOk (prog :: mode :: rest) then
        let s := settled .default (prog :: mode :: rest)
        if mode = serverArg then some (.runServer s.serverPort s.serverOptions)
        else if mode = clientArg then s.serverIP.map fun ip => .runClient ip s.serverPort s.clientOptions
        else some .nothing
      else none := by
  rw [videoMain, checkOptions_eq]
  by_cases hok : PortsOk (prog :: mode :: rest)
  · simp only [if_pos hok, Option.bind_some]
  · simp only [if_neg hok, Option.bind_none]

theorem settled_default (argv : List Arg) :
    (settled .default argv).serverPort = (ports argv).getLast?.getD serverPortDefault ∧
      (settled .default argv).serverIP = (following ipArg argv).getLast?.getD (some serverIpDefault) ∧
      (settled .default argv).clientOptions = flag debugArg runDebug argv ∧
      (settled .default argv).serverOptions = (flag noFifoArg ServerOption.noFifo.code argv |||
        flag iperfArg ServerOption.serverRunIperf.code argv) := by
  have hserver : (0 : BitVec 32) ||| flag noFifoArg ServerOption.noFifo.code argv =
      flag noFifoArg ServerOption.noFifo.code argv := BitVec.zero_or
  refine ⟨rfl, rfl, BitVec.zero_or, ?_⟩
  rw [← hserver]
  rfl

theorem isOptionSet_server (argv : List Arg) :
    isOptionSet (flag noFifoArg ServerOption.noFifo.code argv |||
        flag iperfArg ServerOption.serverRunIperf.code argv) ServerOption.noFifo.code =
          decide (noFifoArg ∈ argv) ∧
      isOptionSet (flag noFifoArg ServerOption.noFifo.code argv |||
        flag iperfArg ServerOption.serverRunIperf.code argv) ServerOption.serverRunIperf.code =
          decide (iperfArg ∈ argv) := by
  by_cases hnoFifo : noFifoArg ∈ argv
  · by_cases hiperf : iperfArg ∈ argv
    all_goals
      simp only [flag, hnoFifo, hiperf]
      decide
  · by_cases hiperf : iperfArg ∈ argv
    all_goals
      simp only [flag, hnoFifo, hiperf]
      decide

theorem isOptionSet_client (argv : List Arg) :
    isOptionSet (flag debugArg runDebug argv) runDebug = decide (debugArg ∈ argv) := by
  by_cases hdebug : debugArg ∈ argv
  all_goals
    simp only [flag, hdebug]
    decide

theorem videoMain_cases {argv : List Arg} {c : Command} (h : videoMain argv = some c) :
    c = .printHelp ∨ c = .nothing ∨ PortsOk argv ∧
      (argv[1]? = some serverArg ∧ c = .runServer (settled .default argv).serverPort
          (settled .default argv).serverOptions ∨
        argv[1]? = some clientArg ∧ ∃ ip, (settled .default argv).serverIP = some ip ∧
          c = .runClient ip (settled .default argv).serverPort (settled .default argv).clientOptions) := by
  match argv with
  | [] => cases h
  | [prog] =>
    cases h
    exact .inl rfl
  | prog :: mode :: rest =>
    rw [videoMain_mode] at h
    split at h
    · cases h
      exact .inl rfl
    split at h
    · rename_i hok
      dsimp only at h
      split at h
      · rename_i hmode
        cases h
        exact .inr (.inr ⟨hok, .inl ⟨by simp [hmode], rfl⟩⟩)
      · split at h
        · rename_i hmode
          obtain ⟨ip, hip, rfl⟩ := Option.map_eq_some_iff.mp h
          exact .inr (.inr ⟨hok, .inr ⟨by simp [hmode], ip, hip, rfl⟩⟩)
        · cases h
          exact .inr (.inl rfl)
    · cases h

theorem eq_cons_cons {argv : List Arg} {mode : Arg} (h : argv[1]? = some mode) :
    ∃ prog rest, argv = prog :: mode :: rest := by
  match argv with
  | [] => cases h
  | [prog] => cases h
  | prog :: arg :: rest =>
    cases h
    exact ⟨prog, rest, rfl⟩

theorem startsServer_iff (argv : List Arg) (port : ℤ) (options : BitVec 32) :
    videoMain argv = some (.runServer port options) ↔ StartsServer argv port options := by
  obtain ⟨hport, -, -, hoptions⟩ := settled_default argv
  constructor
  · intro h
    rcases videoMain_cases h with hc | hc | ⟨hok, ⟨hmode, hc⟩ | ⟨-, ip, -, hc⟩⟩
    · cases hc
    · cases hc
    · cases hc
      obtain ⟨hnoFifo, hiperf⟩ := isOptionSet_server argv
      rw [← hoptions] at hnoFifo hiperf
      exact ⟨hmode, hok, hport, hoptions, hnoFifo, hiperf⟩
    · cases hc
  · intro h
    obtain ⟨prog, rest, rfl⟩ := eq_cons_cons h.mode
    rw [videoMain_mode, if_neg (by decide), if_pos h.portsOk]
    dsimp only
    rw [if_pos rfl, hport, hoptions, ← h.port_eq, ← h.options_eq]

theorem startsClient_iff (argv : List Arg) (ip : Arg) (port : ℤ) (options : BitVec 32) :
    videoMain argv = some (.runClient ip port options) ↔ StartsClient argv ip port options := by
  obtain ⟨hport, hip, hoptions, -⟩ := settled_default argv
  constructor
  · intro h
    rcases videoMain_cases h with hc | hc | ⟨hok, ⟨-, hc⟩ | ⟨hmode, a, ha, hc⟩⟩
    · cases hc
    · cases hc
    · cases hc
    · cases hc
      have hdebug := isOptionSet_client argv
      rw [← hoptions] at hdebug
      exact ⟨hmode, hok, hip.symm.trans ha, hport, hoptions, hdebug⟩
  · intro h
    obtain ⟨prog, rest, rfl⟩ := eq_cons_cons h.mode
    rw [videoMain_mode, if_neg (by decide), if_pos h.portsOk]
    dsimp only
    rw [if_neg (by decide), if_pos rfl, hip, h.ip_eq, hport, hoptions, ← h.port_eq, ← h.options_eq,
      Option.map_some]

theorem goesWrong_iff (argv : List Arg) : videoMain argv = none ↔ GoesWrong argv := by
  match argv with
  | [] => exact iff_of_true rfl (.inl rfl)
  | [prog] =>
    refine iff_of_false (by simp [videoMain]) ?_
    rintro (h | ⟨mode, h, -⟩)
    · simp at h
    · simp at h
  | prog :: mode :: rest =>
    obtain ⟨-, hip, -, -⟩ := settled_default (prog :: mode :: rest)
    have hwrong : GoesWrong (prog :: mode :: rest) ↔ mode ≠ helpArg ∧
        (¬ PortsOk (prog :: mode :: rest) ∨
          mode = clientArg ∧ (following ipArg (prog :: mode :: rest)).getLast? = some none) := by
      simp [GoesWrong]
    rw [videoMain_mode, hwrong]
    by_cases hhelp : mode = helpArg
    · simp [hhelp]
    by_cases hok : PortsOk (prog :: mode :: rest)
    · rw [if_neg hhelp, if_pos hok]
      dsimp only
      by_cases hclient : mode = clientArg
      · subst hclient
        have hserver : clientArg ≠ serverArg := by decide
        rw [if_neg hserver, if_pos rfl, Option.map_eq_none_iff, hip]
        cases (following ipArg (prog :: clientArg :: rest)).getLast? with
        | none => simp [hok]
        | some ip => simp [hok, hhelp]
      · rw [if_neg hclient]
        split <;> simp [hok, hclient]
    · rw [if_neg hhelp, if_neg hok]
      exact iff_of_true rfl ⟨hhelp, .inl hok⟩

/-- There are no arguments, or the first asks for help, whatever is behind it. -/
theorem printsHelp_iff (argv : List Arg) :
    videoMain argv = some .printHelp ↔ argv.length = 1 ∨ argv[1]? = some helpArg := by
  match argv with
  | [] => simp [videoMain]
  | [prog] => simp [videoMain]
  | prog :: mode :: rest =>
    have hmode : (prog :: mode :: rest)[1]? = some helpArg ↔ mode = helpArg := by simp
    rw [hmode, or_iff_right (by simp), videoMain_mode]
    by_cases hhelp : mode = helpArg
    · exact iff_of_true (if_pos hhelp) hhelp
    · refine iff_of_false (fun h => ?_) hhelp
      rw [if_neg hhelp] at h
      split at h
      · dsimp only at h
        split at h
        · cases h
        · split at h
          · obtain ⟨ip, -, hc⟩ := Option.map_eq_some_iff.mp h
            cases hc
          · cases h
      · cases h

/-- A first argument that is no mode, and ports that can be read, are passed over. -/
def DoesNothing (argv : List Arg) : Prop :=
  ∃ mode, argv[1]? = some mode ∧ mode ∉ [helpArg, serverArg, clientArg] ∧ PortsOk argv

theorem doesNothing_iff (argv : List Arg) : videoMain argv = some .nothing ↔ DoesNothing argv := by
  match argv with
  | [] => simp [videoMain, DoesNothing]
  | [prog] => simp [videoMain, DoesNothing]
  | prog :: mode :: rest =>
    have hnothing : DoesNothing (prog :: mode :: rest) ↔
        (mode ≠ helpArg ∧ mode ≠ serverArg ∧ mode ≠ clientArg) ∧ PortsOk (prog :: mode :: rest) := by
      simp [DoesNothing]
    rw [hnothing, videoMain_mode]
    by_cases hhelp : mode = helpArg
    · simp [hhelp]
    by_cases hok : PortsOk (prog :: mode :: rest)
    · rw [if_neg hhelp, if_pos hok]
      dsimp only
      by_cases hserver : mode = serverArg
      · simp [hserver]
      by_cases hclient : mode = clientArg
      · have hne : clientArg ≠ serverArg := by decide
        simp [hclient, hne]
      · simp [hhelp, hserver, hclient, hok]
    · rw [if_neg hhelp, if_neg hok]
      simp [hok]

/-- **What `main` does with any command line**: when it prints the help text, starts the server or the
client, with which port, address and options, does nothing, and when it has no defined behaviour. -/
theorem video_main (argv : List Arg) :
    (videoMain argv = some .printHelp ↔ argv.length = 1 ∨ argv[1]? = some helpArg) ∧
      (∀ port options,
        videoMain argv = some (.runServer port options) ↔ StartsServer argv port options) ∧
      (∀ ip port options,
        videoMain argv = some (.runClient ip port options) ↔ StartsClient argv ip port options) ∧
      (videoMain argv = some .nothing ↔ DoesNothing argv) ∧
      (videoMain argv = none ↔ GoesWrong argv) :=
  ⟨printsHelp_iff argv, startsServer_iff argv, startsClient_iff argv, doesNothing_iff argv,
    goesWrong_iff argv⟩

/-- `-p abc` is port 0, and `-p` at the end is no port. -/
example : videoMain [[118], serverArg, portArg, [97, 98, 99]] = some (.runServer 0 0) ∧
    videoMain [[118], serverArg, portArg] = none := by decide

/-! ### The documented usage -/

/-- An option of the help text, with its value. -/
inductive CliOption where
  | port (n : ℕ)
  | ip (address : Arg)
  | debug
  | noFifo
  | iperf
  deriving DecidableEq

def optionArgs : List Arg := [portArg, ipArg, debugArg, noFifoArg, iperfArg]

/-- The port is an `int`, and the address is not an option itself. -/
def CliOption.Ok : CliOption → Prop
  | .port n => n < 2 ^ 31
  | .ip address => address ∉ optionArgs
  | .debug | .noFifo | .iperf => True

instance : (x : CliOption) → Decidable x.Ok
  | .port n => inferInstanceAs (Decidable (n < 2 ^ 31))
  | .ip address => inferInstanceAs (Decidable (address ∉ optionArgs))
  | .debug | .noFifo | .iperf => isTrue trivial

def CliOption.render : CliOption → List Arg
  | .port n => [portArg, decimal n]
  | .ip address => [ipArg, address]
  | .debug => [debugArg]
  | .noFifo => [noFifoArg]
  | .iperf => [iperfArg]

def CliOption.apply (s : Settings) : CliOption → Settings
  | .port n => { s with serverPort := n }
  | .ip address => { s with serverIP := some address }
  | .debug => { s with clientOptions := s.clientOptions ||| runDebug }
  | .noFifo => { s with serverOptions := s.serverOptions ||| ServerOption.noFifo.code }
  | .iperf => { s with serverOptions := s.serverOptions ||| ServerOption.serverRunIperf.code }

theorem checkOption_other {arg : Arg} (h : arg ∉ optionArgs) (s : Settings) (next : Option Arg) :
    checkOption s arg next = some s := by
  simp only [optionArgs, List.mem_cons, List.not_mem_nil, or_false, not_or] at h
  rw [checkOption_eq, if_neg h.1, if_neg h.2.1, if_neg h.2.2.1, if_neg h.2.2.2.1, if_neg h.2.2.2.2]

theorem decimal_not_mem (n : ℕ) : decimal n ∉ optionArgs := by
  intro hmem
  have hminus : ∀ arg ∈ optionArgs, arg.head? = some 45 := by decide
  have hhead := hminus _ hmem
  have hdigit := isDigit_of_mem_decimal (n := n) 45 (List.mem_of_mem_head? hhead)
  exact absurd hdigit (by decide)

theorem atoi_decimal_self {n : ℕ} (hn : n < 2 ^ 31) : atoi (decimal n) = some (n : ℤ) := by
  have h : atoi ([] ++ (decimal n ++ [])) = some (n : ℤ) := atoi_decimal hn (by simp) (by simp)
  rwa [List.append_nil, List.nil_append] at h

/-- **One option** has its meaning, whatever follows it. -/
theorem checkOptions_render {x : CliOption} (hx : x.Ok) (s : Settings) (rest : List Arg) :
    checkOptions s (x.render ++ rest) = checkOptions (x.apply s) rest := by
  cases x with
  | port n =>
    have hport : checkOption s portArg (some (decimal n)) = some { s with serverPort := n } := by
      rw [checkOption_eq, if_pos rfl, Option.bind_some, atoi_decimal_self hx, Option.map_some]
    simp only [CliOption.render, List.cons_append, List.nil_append, checkOptions, List.head?_cons, hport,
      Option.bind_some, checkOption_other (decimal_not_mem n), CliOption.apply]
  | ip address =>
    have hip : checkOption s ipArg (some address) = some { s with serverIP := some address } := by
      rw [checkOption_eq, if_neg (by decide), if_pos rfl]
    simp only [CliOption.render, List.cons_append, List.nil_append, checkOptions, List.head?_cons, hip,
      Option.bind_some, checkOption_other hx, CliOption.apply]
  | debug =>
    rw [CliOption.render, List.singleton_append, checkOptions, checkOption_eq]
    rfl
  | noFifo =>
    rw [CliOption.render, List.singleton_append, checkOptions, checkOption_eq]
    rfl
  | iperf =>
    rw [CliOption.render, List.singleton_append, checkOptions, checkOption_eq]
    rfl

theorem checkOptions_flatMap {opts : List CliOption} (hopts : ∀ x ∈ opts, x.Ok) (s : Settings) :
    checkOptions s (opts.flatMap CliOption.render) = some (opts.foldl CliOption.apply s) := by
  induction opts generalizing s with
  | nil => rfl
  | cons x opts ih =>
    have hx : x.Ok := hopts x (by simp)
    rw [List.flatMap_cons, checkOptions_render hx, ih fun y hy => hopts y (by simp [hy]),
      List.foldl_cons]

def meaning (opts : List CliOption) : Settings := opts.foldl CliOption.apply .default

theorem apply_serverIP_isSome {s : Settings} (h : s.serverIP.isSome) (x : CliOption) :
    (x.apply s).serverIP.isSome := by
  cases x with
  | ip address => rfl
  | port n => exact h
  | debug => exact h
  | noFifo => exact h
  | iperf => exact h

theorem meaning_serverIP_isSome (opts : List CliOption) : (meaning opts).serverIP.isSome := by
  have hfold : ∀ s : Settings, s.serverIP.isSome →
      (opts.foldl CliOption.apply s).serverIP.isSome := by
    induction opts with
    | nil => exact fun s h => h
    | cons x opts ih => exact fun s h => ih _ (apply_serverIP_isSome h x)
  exact hfold _ rfl

/-- **A command line as documented is understood**: any options behind `-s` or `-c`, in any order and
number, the later ones overriding. -/
theorem usage_round_trip (prog : Arg) (hprog : prog ∉ optionArgs) (opts : List CliOption)
    (hopts : ∀ x ∈ opts, x.Ok) :
    videoMain (prog :: serverArg :: opts.flatMap CliOption.render) =
        some (.runServer (meaning opts).serverPort (meaning opts).serverOptions) ∧
      ∃ ip, (meaning opts).serverIP = some ip ∧
        videoMain (prog :: clientArg :: opts.flatMap CliOption.render) =
          some (.runClient ip (meaning opts).serverPort (meaning opts).clientOptions) := by
  have hcheck (mode : Arg) (hmode : mode ∉ optionArgs) :
      checkOptions .default (prog :: mode :: opts.flatMap CliOption.render) = some (meaning opts) := by
    rw [checkOptions, checkOption_other hprog, Option.bind_some, checkOptions, checkOption_other hmode,
      Option.bind_some, checkOptions_flatMap hopts, meaning]
  obtain ⟨ip, hip⟩ := Option.isSome_iff_exists.mp (meaning_serverIP_isSome opts)
  constructor
  · rw [videoMain, if_neg (by decide), hcheck serverArg (by decide), Option.bind_some, if_pos rfl]
  · refine ⟨ip, hip, ?_⟩
    rw [videoMain, if_neg (by decide), hcheck clientArg (by decide), Option.bind_some,
      if_neg (by decide), if_pos rfl, hip, Option.map_some]

/-- "video -s -p 1234 -nf -p 80", and the same for a client. -/
theorem usage_round_trip_two_ports :
    videoMain ([118, 105, 100, 101, 111] :: serverArg ::
          [CliOption.port 1234, .noFifo, .port 80].flatMap CliOption.render) =
        some (.runServer (meaning [.port 1234, .noFifo, .port 80]).serverPort
          (meaning [.port 1234, .noFifo, .port 80]).serverOptions) ∧
      ∃ ip, (meaning [.port 1234, .noFifo, .port 80]).serverIP = some ip ∧
        videoMain ([118, 105, 100, 101, 111] :: clientArg ::
            [CliOption.port 1234, .noFifo, .port 80].flatMap CliOption.render) =
          some (.runClient ip (meaning [.port 1234, .noFifo, .port 80]).serverPort
            (meaning [.port 1234, .noFifo, .port 80]).clientOptions) :=
  usage_round_trip [118, 105, 100, 101, 111] (by decide) [.port 1234, .noFifo, .port 80] (by decide)

/-! ### The android server -/

/-- `main` of the android server: the port it calls `runServer` with, if it calls it.  `runServer` ends
the thread (`pthread_exit`), so the loop goes no further. -/
def androidMain : List Arg → Option (Option ℤ)
  | [] => some none
  | arg :: rest => if arg = portArg then (rest.head?.bind atoi).map some else androidMain rest

/-- **The first `-p` counts**, where the last one does in the video program. -/
theorem androidMain_eq (argv : List Arg) :
    androidMain argv =
      match following portArg argv with
      | [] => some none
      | value :: _ => (value.bind atoi).map some := by
  induction argv with
  | nil => rfl
  | cons arg rest ih =>
    rw [androidMain]
    by_cases hport : arg = portArg
    · rw [if_pos hport, hport, following_cons_self]
    · rw [if_neg hport, ih, following_cons_of_ne hport]

end LinkManagement.CommandLine

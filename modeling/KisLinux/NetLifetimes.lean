import KisLinux.FsReopen
import KisLinux.NetCli

/-!
# Lifetimes of a volume

`main` of `main_backend.c`, and what becomes of a volume when the daemon program is
started on it again and again. A mapping is shared with its file, so a daemon leaves
the file that its image came to, and the next one finds the tree there that the
clients of the one before have left.
-/
namespace KisLinux.Net
open ByteMemory StateRun NameTree Numerals Fs

/-! ## The daemon program -/

/-- What a start of the daemon program finds around it. -/
structure Host where
  os : Platform
  /-- What the first call says that fails between `open_fs` and `accept` for a port. -/
  serverError : ℕ → Option (List UInt8)
  /-- What the stack holds where a scanned number should be stored. -/
  stackSize : ℕ
  stackPort : ℕ
  stackSize_lt : stackSize < wordSize

/-- The commands of the daemon program. The file that is named behind a command is an
argument of its own below. -/
inductive Invocation
  | init (size : List UInt8)
  | run (port : List UInt8)
  deriving DecidableEq, Repr

def Invocation.ofArgs : List (List UInt8) → Option Invocation
  | [_, name, first, second] =>
    if sameCase "init" name then some (.init second)
    else if sameCase "run" name then some (.run first)
    else none
  | _ => none

/-- What a start comes to. -/
inductive Launch
  /-- The process prints something and exits. -/
  | printed (out : List UInt8)
  /-- `main`, `get_page_size` or the server ends the process with a message. -/
  | died (message : List UInt8)
  /-- `init_fs` or `open_fs` ends it; the text of `errno` behind the message is left out. -/
  | stopped (stop : Stop)
  | serving (port : ℕ) (fds : FsDescriptors) (img : Image)

/-- What `die_with_help` prints. -/
def daemonHelp : List UInt8 :=
  messageBytes ("Usage:\n./rfsdaemon run <port> <path_to_fs>\n  or\n" ++
    "./rfsdaemon init <path_to_fs> <size>\n")

def invalidArgument : List UInt8 := messageBytes "Invalid argument"

/-- The size of `init`, scanned with `%llu`; the error of the scan is found by
`get_page_size`. -/
def scanSize (host : Host) (s : List UInt8) : Except (List UInt8) ℕ :=
  match scan s with
  | .mismatch => .error invalidArgument
  | .eof => .ok host.stackSize
  | .number negative magnitude =>
    if wordSize ≤ magnitude then .error (messageBytes ("Internal error: " ++ outOfRange))
    else .ok (if negative then wsub 0 magnitude else magnitude)

/-- The port of `run`, scanned with `%d`; the error of the scan is found behind `open`. -/
def scanPort (host : Host) (s : List UInt8) : Except (List UInt8) ℕ :=
  match scan s with
  | .mismatch => .error invalidArgument
  | .eof => .ok host.stackPort
  | .number negative magnitude =>
    if fitsLong negative magnitude then .ok (portNumber negative magnitude)
    else .error (messageBytes (FsError.openFile.text ++ ": " ++ outOfRange))

/-- The file that `init_fs` leaves behind, whatever it comes to. -/
def initFile (os : Platform) (file : List UInt8) (size : ℕ) : List UInt8 :=
  let length := initLength os size
  if length ≠ 0 ∧ os.canResize length = false then file
  else
    match openAndMap os file length with
    | .error _ => if length = 0 then file else slice (fun a => file.getD a 0) 0 length
    | .ok img =>
      slice (finalState (formatVolume os.pageSize (pagesCount os size) img)).bytes 0
        (if length = 0 then file.length else length)

/-- What `init` prints in the end. -/
def readyText (count bs : ℕ) : List UInt8 :=
  messageBytes "Ready: " ++ decimal count ++ messageBytes " blocks of " ++ decimal bs ++
    messageBytes " bytes\n"

/-- `init` on a file, `none` for one that does not exist, with the file behind it. `open`
creates a file only where a length is asked for. -/
def init (host : Host) (file : Option (List UInt8)) (size : ℕ) : Launch × Option (List UInt8) :=
  if file = none ∧ initLength host.os size = 0 then (.stopped (.die .openFile), none)
  else
    match initFs host.os (file.getD []) size with
    | .ok (_, img) =>
      let count := leNat (slice img.bytes blocksCountField 8)
      let bs := leNat (slice img.bytes blockSizeField 8)
      (.printed (readyText count bs), some img.toFile)
    | .error stop => (.stopped stop, some (initFile host.os (file.getD []) size))

/-- `start_fs_daemon` on a file. -/
def startFsDaemon (host : Host) (port : ℕ) (file : List UInt8) : Launch :=
  match openFs host.os file with
  | .error stop => .stopped stop
  | .ok (fds, img) =>
    match host.serverError port with
    | some message => .died message
    | none => .serving port fds img

def Invocation.launch (host : Host) (file : Option (List UInt8)) :
    Invocation → Launch × Option (List UInt8)
  | .init size =>
    match scanSize host size with
    | .error message => (.died message, file)
    | .ok size => Net.init host file size
  | .run port =>
    if scan port = .mismatch then (.died invalidArgument, file)
    else
      match file with
      | none => (.stopped (.die .openFile), none)
      | some bytes =>
        match scanPort host port with
        | .error message => (.died message, file)
        | .ok port => (startFsDaemon host port bytes, file)

/-- `main` of the daemon program, with the file behind it. -/
def launch (host : Host) (file : Option (List UInt8)) (argv : List (List UInt8)) :
    Launch × Option (List UInt8) :=
  match Invocation.ofArgs argv with
  | none => (.printed daemonHelp, file)
  | some invocation => invocation.launch host file

/-- One start of the daemon program, with the runs of the client program while it serves. -/
structure Lifetime where
  host : Host
  argv : List (List UInt8)
  runs : List ProgramRun

/-- What a start and the runs behind it come to. -/
abbrev Lived := Launch × List (EStateM.Result ClientStop Client Unit)

/-- The runs while the daemon serves, and the file that it leaves when it ends. -/
def serve (runs : List ProgramRun) : Launch × Option (List UInt8) → Lived × Option (List UInt8)
  | (.serving port fds img, _) =>
    let results := session fds img runs
    ((.serving port fds img, results), some (leftBehind img results).toFile)
  | (x, file) => ((x, []), file)

def Lifetime.live (l : Lifetime) (file : Option (List UInt8)) : Lived × Option (List UInt8) :=
  serve l.runs (launch l.host file l.argv)

/-- What starts of the daemon program come to, each on the file that the one before it
left behind. -/
def lifetimes : Option (List UInt8) → List Lifetime → List Lived
  | _, [] => []
  | file, l :: rest => (l.live file).1 :: lifetimes (l.live file).2 rest

/-- The file behind them all. -/
def fileBehind (file : Option (List UInt8)) (ls : List Lifetime) : Option (List UInt8) :=
  ls.foldl (fun file l => (l.live file).2) file

/-! ## What a file holds -/

/-- The file of a volume of the tree `t`. -/
structure HoldsTree (g : Geometry) (file : List UInt8) (t : FileTree) : Prop where
  refines : Refines g (imageOf file) t
  /-- The root directory is where `prepare_descriptors` looks for it. -/
  root_eq : g.root = metadataPages g.blockSize g.blocksCount

theorem Refines.reopened {g : Geometry} {img : Image} {t : FileTree} (h : Refines g img t) :
    Refines g (imageOf img.toFile) t := by
  obtain ⟨live, n, htree, hplain, hrelabel⟩ := h
  refine ⟨live, n, ?_, fun item hitem => ?_, hrelabel⟩
  · exact htree.kept htree.owned.reopened (fun b hb => htree.owned.kept_reopened (htree.live b hb))
      htree.live
  · rw [(htree.owned.kept_reopened (htree.item_live hitem)).self.flags_eq]
    exact hplain item hitem

namespace HoldsTree

variable {g : Geometry} {file : List UInt8} {img : Image} {t : FileTree} {os : Platform}

theorem onVolume (h : HoldsTree g file t) : OnVolume g (imageOf file) := by
  obtain ⟨live, n, htree, -⟩ := h.refines
  exact htree.owned.onVolume

theorem length_eq (h : HoldsTree g file t) : file.length = g.blocksCount * g.blockSize :=
  h.onVolume.mapped_eq

theorem of_image (ht : Refines g img t) (hroot : g.root = metadataPages g.blockSize g.blocksCount) :
    HoldsTree g img.toFile t := ⟨ht.reopened, hroot⟩

end HoldsTree

/-- What is known of a file: the volume on it and its tree. -/
abbrev Known := Option (Geometry × FileTree)

def Known.About (k : Known) (file : Option (List UInt8)) : Prop :=
  ∀ v ∈ k, ∃ bytes, file = some bytes ∧ HoldsTree v.1 bytes v.2

/-- What a lifetime comes to, and what is known behind it. A volume that is formatted
holds the empty tree; a daemon serves the tree that it finds; every other start leaves
the tree alone, unless `init` gives up after it has the mapping. -/
inductive Lifetime.Told (l : Lifetime) : Known → Lived → Known → Prop
  | help {k : Known} (args : Invocation.ofArgs l.argv = none) : Told l k (.printed daemonHelp, []) k
  | badSize {k : Known} {size message : List UInt8} (args : Invocation.ofArgs l.argv = some (.init size))
      (bad : scanSize l.host size = .error message) : Told l k (.died message, []) k
  | ungranted {k : Known} {size : List UInt8} {n : ℕ}
      (args : Invocation.ofArgs l.argv = some (.init size)) (scanned : scanSize l.host size = .ok n)
      (length_ne : initLength l.host.os n ≠ 0)
      (resize : l.host.os.canResize (initLength l.host.os n) = false) :
      Told l k (.stopped (.die .prepareFile), []) k
  | formatted {k : Known} {size : List UInt8} {n : ℕ} {g : Geometry}
      (args : Invocation.ofArgs l.argv = some (.init size)) (scanned : scanSize l.host size = .ok n)
      (can : l.host.os.CanFormat n) (blockSize_eq : g.blockSize = l.host.os.pageSize)
      (blocksCount_eq : g.blocksCount = pagesCount l.host.os n) :
      Told l k (.printed (readyText g.blocksCount g.blockSize), []) (some (g, .dir () .nil))
  | unformatted {k : Known} {size : List UInt8} {n : ℕ} {stop : Stop}
      (args : Invocation.ofArgs l.argv = some (.init size)) (scanned : scanSize l.host size = .ok n)
      (granted : initLength l.host.os n = 0 ∨ l.host.os.canResize (initLength l.host.os n) = true)
      (cannot : ¬ l.host.os.CanFormat n) : Told l k (.stopped stop, []) none
  | badPort {v : Geometry × FileTree} {port message : List UInt8}
      (args : Invocation.ofArgs l.argv = some (.run port))
      (bad : scanPort l.host port = .error message) : Told l (some v) (.died message, []) (some v)
  | unmapped {g : Geometry} {t : FileTree} {port : List UInt8} {p : ℕ}
      (args : Invocation.ofArgs l.argv = some (.run port)) (scanned : scanPort l.host port = .ok p)
      (map : l.host.os.canMap (g.blocksCount * g.blockSize) = false) :
      Told l (some (g, t)) (.stopped (.die .openFile), []) (some (g, t))
  | unserved {g : Geometry} {t : FileTree} {port message : List UInt8} {p : ℕ}
      (args : Invocation.ofArgs l.argv = some (.run port)) (scanned : scanPort l.host port = .ok p)
      (map : l.host.os.canMap (g.blocksCount * g.blockSize) = true)
      (fails : l.host.serverError p = some message) :
      Told l (some (g, t)) (.died message, []) (some (g, t))
  | served {g : Geometry} {t : FileTree} {port : List UInt8} {p : ℕ} {img : Image}
      {results : List (EStateM.Result ClientStop Client Unit)} {left : Option FileTree}
      (args : Invocation.ofArgs l.argv = some (.run port)) (scanned : scanPort l.host port = .ok p)
      (map : l.host.os.canMap (g.blocksCount * g.blockSize) = true)
      (serves : l.host.serverError p = none) (refines : Refines g img t)
      (explained : Explained g ⟨g.root⟩ img t l.runs results left) :
      Told l (some (g, t)) (.serving p ⟨g.root⟩ img, results) (left.map (g, ·))
  | unknown {port : List UInt8} {x : Lived} (args : Invocation.ofArgs l.argv = some (.run port)) :
      Told l none x none

/-- Lifetimes, one by one, on what is known behind the one before. -/
inductive Chronicle : Known → List Lifetime → List Lived → Known → Prop
  | nil {k : Known} : Chronicle k [] [] k
  | cons {k k' k'' : Known} {l : Lifetime} {ls : List Lifetime} {x : Lived} {xs : List Lived}
      (told : l.Told k x k') (rest : Chronicle k' ls xs k'') : Chronicle k (l :: ls) (x :: xs) k''

/-- Only a daemon has clients. -/
theorem Lifetime.Told.explained {l : Lifetime} {g : Geometry} {t : FileTree} {x : Lived} {k : Known}
    (h : l.Told (some (g, t)) x k) (hne : x.2 ≠ []) :
    ∃ img left, Explained g ⟨g.root⟩ img t l.runs x.2 left ∧ k = left.map (g, ·) := by
  cases h with
  | served _ _ _ _ _ explained => exact ⟨_, _, explained, rfl⟩
  | help _ | badSize _ _ | ungranted _ _ _ _ | formatted _ _ _ _ _ | unformatted _ _ _ _ | badPort _ _
  | unmapped _ _ _ | unserved _ _ _ _ => exact absurd rfl hne

/-- An `init` that can format the file has done it. -/
theorem Lifetime.Told.formatted_of {l : Lifetime} {k k' : Known} {x : Lived} {size : List UInt8} {n : ℕ}
    (h : l.Told k x k') (hargs : Invocation.ofArgs l.argv = some (.init size))
    (hscan : scanSize l.host size = .ok n) (hcan : l.host.os.CanFormat n) :
    ∃ g, k' = some (g, .dir () .nil) ∧ g.blockSize = l.host.os.pageSize ∧
      g.blocksCount = pagesCount l.host.os n := by
  have hsame : ∀ {invocation}, Invocation.ofArgs l.argv = some invocation → invocation = .init size :=
    fun hargs' => Option.some.inj (hargs'.symm.trans hargs)
  have hnumber : ∀ {size' n'}, Invocation.ofArgs l.argv = some (.init size') →
      scanSize l.host size' = .ok n' → n' = n := fun hargs' hscan' => by
    obtain rfl := Invocation.init.inj (hsame hargs')
    exact Except.ok.inj (hscan'.symm.trans hscan)
  cases h with
  | help args => cases args.symm.trans hargs
  | badSize args bad =>
    obtain rfl := Invocation.init.inj (hsame args)
    cases bad.symm.trans hscan
  | ungranted args scanned _ resize =>
    obtain rfl := hnumber args scanned
    cases hcan.resize.symm.trans resize
  | formatted args scanned _ blockSize_eq blocksCount_eq =>
    obtain rfl := hnumber args scanned
    exact ⟨_, rfl, blockSize_eq, blocksCount_eq⟩
  | unformatted args scanned _ cannot =>
    obtain rfl := hnumber args scanned
    exact absurd hcan cannot
  | badPort args _ | unmapped args _ _ | unserved args _ _ _ | served args _ _ _ _ _ | unknown args =>
    cases hsame args

section Starts

variable {l : Lifetime} {k : Known} {file : Option (List UInt8)}

theorem Known.about_none (file : Option (List UInt8)) : Known.About none file := by
  intro v hv
  cases hv

theorem HoldsTree.about {v : Geometry × FileTree} {bytes : List UInt8} (h : HoldsTree v.1 bytes v.2) :
    Known.About (some v) (some bytes) := by
  intro v' hv
  obtain rfl := Option.some.inj hv
  exact ⟨bytes, rfl, h⟩

theorem superblock_read {g : Geometry} {img : Image} (h : OnVolume g img) :
    leNat (slice img.bytes blocksCountField 8) = g.blocksCount ∧
      leNat (slice img.bytes blockSizeField 8) = g.blockSize := by
  have hsb : SuperblockIs (leBytes 8 g.blockSize ++ leBytes 8 g.blocksCount ++ getPlatformValues.encode)
      img.mapped img := ⟨h.superblock_eq, rfl⟩
  rw [hsb.fields.1, hsb.fields.2, leNat_leBytes g.blocksCount_lt, leNat_leBytes g.blockSize_lt]
  exact ⟨rfl, rfl⟩

/-- A length that is not granted leaves the file as it was. -/
theorem initFile_ungranted {os : Platform} {size : ℕ} (file : List UInt8)
    (hlength : initLength os size ≠ 0) (hresize : os.canResize (initLength os size) = false) :
    initFile os file size = file := by
  rw [initFile]
  exact if_pos ⟨hlength, hresize⟩

/-- A file that `init` has made a volume of, or has given back, or that is unknown now. -/
theorem init_told {size : List UInt8} {n : ℕ} (hargs : Invocation.ofArgs l.argv = some (.init size))
    (hscan : scanSize l.host size = .ok n) (h : k.About file) : ∃ k' : Known,
      l.Told k (serve l.runs (Net.init l.host file n)).1 k' ∧
      k'.About (serve l.runs (Net.init l.host file n)).2 := by
  rw [Net.init]
  by_cases hmissing : file = none ∧ initLength l.host.os n = 0
  · rw [if_pos hmissing]
    have hcannot : ¬ l.host.os.CanFormat n := fun hcan => hcan.length_ne hmissing.2
    exact ⟨none, .unformatted hargs hscan (.inl hmissing.2) hcannot, Known.about_none _⟩
  rw [if_neg hmissing]
  cases hinit : initFs l.host.os (file.getD []) n with
  | ok r =>
    obtain ⟨fs, img⟩ := r
    obtain ⟨hcan, g, hbs, hcount, hroot, hformatted⟩ := initFs_volume hinit
    obtain ⟨hreadCount, hreadSize⟩ := superblock_read hformatted.owned.onVolume
    dsimp only
    rw [hreadCount, hreadSize]
    refine ⟨some (g, .dir () .nil), .formatted hargs hscan hcan hbs hcount, fun v hv => ?_⟩
    obtain rfl := Option.some.inj hv
    exact ⟨img.toFile, rfl, .of_image (refines_formatted hformatted) hroot⟩
  | error stop =>
    by_cases hgranted : initLength l.host.os n = 0 ∨ l.host.os.canResize (initLength l.host.os n) = true
    · exact ⟨none, .unformatted hargs hscan hgranted (not_canFormat_of_error hinit), Known.about_none _⟩
    rw [not_or, Bool.not_eq_true] at hgranted
    obtain ⟨hlength, hresize⟩ := hgranted
    obtain rfl : stop = .die .prepareFile := by
      rw [initFs_ungranted hlength hresize] at hinit
      exact (Except.error.inj hinit).symm
    refine ⟨k, .ungranted hargs hscan hlength hresize, fun v hv => ?_⟩
    obtain ⟨bytes, rfl, hholds⟩ := h v hv
    refine ⟨bytes, ?_, hholds⟩
    exact congrArg some (initFile_ungranted bytes hlength hresize)

/-- A daemon on the file of a volume. -/
theorem startFsDaemon_told {port bytes : List UInt8} {p : ℕ} {g : Geometry} {t : FileTree}
    (hargs : Invocation.ofArgs l.argv = some (.run port)) (hscan : scanPort l.host port = .ok p)
    (hrm : ∀ r ∈ l.runs, ¬ r.Removes) (h : HoldsTree g bytes t) : ∃ k' : Known,
      l.Told (some (g, t)) (serve l.runs (startFsDaemon l.host p bytes, some bytes)).1 k' ∧
      k'.About (serve l.runs (startFsDaemon l.host p bytes, some bytes)).2 := by
  rw [startFsDaemon]
  cases hmap : l.host.os.canMap bytes.length with
  | false =>
    rw [openFs_unmapped hmap]
    rw [h.length_eq] at hmap
    exact ⟨_, .unmapped hargs hscan hmap, h.about⟩
  | true =>
    rw [openFs_imageOf h.onVolume h.root_eq hmap]
    rw [h.length_eq] at hmap
    dsimp only
    cases hserver : l.host.serverError p with
    | some message => exact ⟨_, .unserved hargs hscan hmap hserver, h.about⟩
    | none =>
      obtain ⟨left, hexplained, hleft⟩ :=
        @session_settled ⟨g.root⟩ g _ t l.runs hrm h.refines rfl
      refine ⟨_, .served hargs hscan hmap hserver h.refines hexplained, fun v hv => ?_⟩
      obtain ⟨t', ht', rfl⟩ := Option.map_eq_some_iff.mp hv
      exact ⟨_, rfl, .of_image (hleft t' ht') h.root_eq⟩

theorem launch_told {invocation : Invocation} (hargs : Invocation.ofArgs l.argv = some invocation)
    (hrm : ∀ r ∈ l.runs, ¬ r.Removes) (h : k.About file) : ∃ k' : Known,
      l.Told k (serve l.runs (invocation.launch l.host file)).1 k' ∧
      k'.About (serve l.runs (invocation.launch l.host file)).2 := by
  cases invocation with
  | init size =>
    rw [Invocation.launch]
    cases hscan : scanSize l.host size with
    | error message => exact ⟨k, .badSize hargs hscan, h⟩
    | ok n => exact init_told hargs hscan h
  | run port =>
    cases k with
    | none => exact ⟨none, .unknown hargs, Known.about_none _⟩
    | some v =>
      obtain ⟨bytes, rfl, hholds⟩ := h v rfl
      rw [Invocation.launch]
      by_cases hmismatch : scan port = .mismatch
      · have hbad : scanPort l.host port = .error invalidArgument := by rw [scanPort, hmismatch]
        rw [if_pos hmismatch]
        exact ⟨_, .badPort hargs hbad, hholds.about⟩
      rw [if_neg hmismatch]
      cases hscan : scanPort l.host port with
      | error message => exact ⟨_, .badPort hargs hscan, hholds.about⟩
      | ok p => exact startFsDaemon_told hargs hscan hrm hholds

/-- What one lifetime comes to. -/
theorem live_told (hrm : ∀ r ∈ l.runs, ¬ r.Removes) (h : k.About file) :
    ∃ k' : Known, l.Told k (l.live file).1 k' ∧ k'.About (l.live file).2 := by
  rw [Lifetime.live, launch]
  cases hargs : Invocation.ofArgs l.argv with
  | none => exact ⟨k, .help hargs, h⟩
  | some invocation => exact launch_told hargs hrm h

/-- **A volume outlives its daemons.** Whatever is known of a file, and however the
daemon program is started on it again and again, every start comes to what is known
behind the one before, and the clients of every daemon find the tree that the clients
of the last one have left. -/
theorem lifetimes_told (ls : List Lifetime) (hrm : ∀ l ∈ ls, ∀ r ∈ l.runs, ¬ r.Removes)
    (h : k.About file) :
    ∃ k' : Known, Chronicle k ls (lifetimes file ls) k' ∧ k'.About (fileBehind file ls) := by
  induction ls generalizing k file with
  | nil => exact ⟨k, .nil, h⟩
  | cons l ls ih =>
    obtain ⟨k₁, htold, h₁⟩ := live_told (hrm l List.mem_cons_self) h
    obtain ⟨k₂, hrest, h₂⟩ := ih (fun l' hl' => hrm l' (List.mem_cons_of_mem _ hl')) h₁
    exact ⟨k₂, .cons htold hrest, h₂⟩

end Starts

/-- A host on which everything is granted. -/
def sectorHost : Host where
  os := sectorPlatform
  serverError := fun _ => none
  stackSize := 0
  stackPort := 0
  stackSize_lt := Nat.two_pow_pos 64

/-- A volume is made, a file is made and written, and another daemon prints it. -/
def fileLifetimes : List Lifetime :=
  [⟨sectorHost, ["rfsdaemon", "init", "volume", "2048"].map messageBytes, []⟩,
    ⟨sectorHost, ["rfsdaemon", "run", "8080", "volume"].map messageBytes, fileRuns.take 2⟩,
    ⟨sectorHost, ["rfsdaemon", "Run", "80", "volume"].map messageBytes, fileRuns.drop 2⟩]

/-- The volume is made, and the second daemon prints what a client of the first has
written. -/
theorem lifetimes_told_restart : ∃ g x₁ x₂ x₃ c,
    lifetimes none fileLifetimes = [x₁, x₂, x₃] ∧ x₃.2 = [.ok () c] ∧ c.stdout = [104, 101, 108, 108, 111] ∧
    Chronicle none fileLifetimes [x₁, x₂, x₃] (some (g, fileTree [104, 101, 108, 108, 111])) := by
  have hwell : (lifetimes none fileLifetimes).map (fun x => x.2.map exitsZero) =
      [[], [true, true], [true]] := by
    decide +kernel
  have hrm : ∀ l ∈ fileLifetimes, ∀ r ∈ l.runs, ¬ r.Removes := by
    rw [fileLifetimes, List.forall_mem_cons, List.forall_mem_cons, List.forall_mem_singleton]
    refine ⟨fun r hr => ?_, fun r hr => ?_, fun r hr => ?_⟩
    · cases hr
    · exact fileRuns_keep r (List.mem_of_mem_take hr)
    · exact fileRuns_keep r (List.mem_of_mem_drop hr)
  obtain ⟨k, hchronicle, -⟩ := lifetimes_told fileLifetimes hrm (Known.about_none none)
  generalize lifetimes none fileLifetimes = xs at hwell hchronicle ⊢
  obtain ⟨x₁, ys, rfl, hx₁, hys⟩ := List.map_eq_cons_iff.mp hwell
  obtain ⟨x₂, zs, rfl, hx₂, hzs⟩ := List.map_eq_cons_iff.mp hys
  obtain ⟨x₃, nothing, rfl, hx₃, hnothing⟩ := List.map_eq_cons_iff.mp hzs
  obtain rfl := List.map_eq_nil_iff.mp hnothing
  have hscan : scanSize sectorHost (messageBytes "2048") = .ok 2048 := by decide
  have hinit : Invocation.ofArgs (["rfsdaemon", "init", "volume", "2048"].map messageBytes) =
      some (.init (messageBytes "2048")) := by decide
  have hwhole := hchronicle
  rcases hchronicle with _ | ⟨hmade, _ | ⟨hwritten, _ | ⟨hprinted, hend⟩⟩⟩
  obtain ⟨g, rfl, -⟩ := hmade.formatted_of hinit hscan (initFs_volume freshImage_run).1
  obtain ⟨c₁, ws, hws₁, hws⟩ := exitsZero_cons hx₂
  obtain ⟨c₂, nothing, rfl, hnothing⟩ := exitsZero_cons hws
  obtain rfl := List.map_eq_nil_iff.mp hnothing
  obtain ⟨img₁, left₁, hexplained₁, rfl⟩ := hwritten.explained (by simp [hws₁])
  rw [hws₁] at hexplained₁
  cases Explained.written [] hexplained₁
  obtain ⟨c₃, nothing, hps, hnothing⟩ := exitsZero_cons hx₃
  obtain rfl := List.map_eq_nil_iff.mp hnothing
  obtain ⟨img₂, left₂, hexplained₂, rfl⟩ := hprinted.explained (by simp [hps])
  rw [hps] at hexplained₂
  obtain ⟨hstdout, rfl⟩ := Explained.printed hexplained₂
  cases hend
  exact ⟨g, x₁, x₂, x₃, c₃, rfl, hps, hstdout, hwhole⟩

end KisLinux.Net

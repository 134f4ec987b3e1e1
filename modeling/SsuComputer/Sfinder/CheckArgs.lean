import SsuComputer.Lib.Run
import SsuComputer.Sfinder.GetSize
import SsuComputer.Sfinder.TrashMoves

/-!
# SsuComputer.Sfinder.CheckArgs

`check_args`, the arguments of a search, and the global variables it leaves to the next one.

* `parseOpt`, `parse` — the switch over the options and the loop around it.
* `checkArgs` — the checks behind the loop.
* `checkArgs_accepted` — which command lines are accepted, and with which values.
* `search_independent_iff` — when earlier searches make no difference.
-/

namespace SsuComputer
namespace Sfinder

def PATHMAX : Nat := 4096

/-- The size of `temp_extension`, and of the global `extension`. -/
def EXTMAX : Nat := 10

/-- The global variables that `check_args` sets. -/
structure Globals where
  extension : CString
  minbsize : Int
  maxbsize : Int
  threadNum : Int

/-- The values at the start of the program. -/
def Globals.initial : Globals := ⟨[], 0, 0, 1⟩

/-- An option as `getopt` returns it, with `optarg`. -/
inductive SearchOpt where
  | e (optarg : CString)
  | l (optarg : CString)
  | h (optarg : CString)
  | d (optarg : CString)
  | t (optarg : CString)
  /-- An unknown option, or one without its argument. -/
  | other
  deriving DecidableEq

/-- What earlier calls have left in the arrays on the stack, as strings. -/
structure Frame where
  tempExtension : CString
  targetDir : CString
  /-- The rest of `temp_target_dir` from where HOME ends. -/
  behindHome : CString

/-- The calls of the system; `isDir` is the function of the source. -/
structure System where
  home : CString
  realpath : CString → Option CString
  access : CString → Bool
  isDir : CString → Bool

structure ArgState extends Globals where
  tempExtension : CString
  targetDir : CString

/-- How a part of `check_args` ends. -/
inductive Outcome (α : Type) where
  /-- A text is written behind the end of its array. -/
  | overflow
  /-- `return 1`. -/
  | rejected (s : ArgState)
  | accepted (a : α)

def Outcome.andThen {α β : Type} (r : Outcome α) (f : α → Outcome β) : Outcome β :=
  match r with
  | .overflow => .overflow
  | .rejected s => .rejected s
  | .accepted a => f a

/-- `atoi`: the value of `strtol`, cut to an `int`. -/
def atoi (s : CString) : Int := (strtol s).bmod (2 ^ 32)

def minOf (size : Int) : Int := if size = -1 then 0 else size

def parseOpt (toBytes : CString → Nat → Int) (s : ArgState) : SearchOpt → Outcome ArgState
  | .e optarg =>
    if optarg.length < EXTMAX then .accepted { s with tempExtension := optarg } else .overflow
  | .l optarg =>
    match getSize toBytes optarg with
    | some size => .accepted { s with minbsize := minOf size }
    | none => .overflow
  | .h optarg =>
    match getSize toBytes optarg with
    | some size => .accepted { s with maxbsize := size }
    | none => .overflow
  | .d optarg =>
    if optarg.length < PATHMAX then .accepted { s with targetDir := optarg } else .overflow
  | .t optarg =>
    if atoi optarg < 1 ∨ atoi optarg > 5 then .rejected { s with threadNum := atoi optarg }
    else .accepted { s with threadNum := atoi optarg }
  | .other => .accepted s

/-- The loop over `getopt`. -/
def parse (toBytes : CString → Nat → Int) (s : ArgState) : List SearchOpt → Outcome ArgState
  | [] => .accepted s
  | o :: opts => (parseOpt toBytes s o).andThen fun s => parse toBytes s opts

/-- The argument has to hold a star; the global is set only when it holds a dot as well. -/
def checkExtension (s : ArgState) : Outcome ArgState :=
  if '*' ∉ s.tempExtension then .rejected s
  else if '.' ∈ s.tempExtension then
    match getExtension s.tempExtension with
    | none => .overflow
    | some ext =>
      if ext.length < EXTMAX then
        if ext = [] then .rejected { s with extension := ext }
        else .accepted { s with extension := ext }
      else .overflow
  else .accepted s

def checkSizes (s : ArgState) : Outcome ArgState :=
  if s.minbsize = SIZE_ERROR ∨ s.maxbsize = SIZE_ERROR then .rejected s
  else if s.maxbsize ≠ -1 ∧ s.minbsize > s.maxbsize then .rejected s
  else .accepted s

def tempTargetDir (sys : System) (frame : Frame) (s : ArgState) : Outcome CString :=
  if '~' ∈ s.targetDir then .accepted (getPathFromHome sys.home s.targetDir frame.behindHome)
  else match sys.realpath s.targetDir with
    | none => .rejected s
    | some path => .accepted path

def checkDirectory (sys : System) (frame : Frame) (s : ArgState) : Outcome ArgState :=
  (tempTargetDir sys frame s).andThen fun temp =>
    if temp.length < PATHMAX then
      if sys.access temp = false then .rejected s
      else if sys.isDir temp = false then .rejected s
      else .accepted { s with targetDir := temp }
    else .overflow

def checkArgs (toBytes : CString → Nat → Int) (sys : System) (frame : Frame) (opts : List SearchOpt)
    (g : Globals) : Outcome ArgState :=
  (parse toBytes ⟨g, frame.tempExtension, frame.targetDir⟩ opts).andThen fun s =>
    (checkExtension s).andThen fun s => (checkSizes s).andThen (checkDirectory sys frame)

/-- A command at the prompt: the other ones leave these variables alone. -/
inductive Command where
  | search (sys : System) (frame : Frame) (opts : List SearchOpt)
  | other

def command (toBytes : CString → Nat → Int) (g : Globals) : Command → Option Globals
  | .search sys frame opts =>
    match checkArgs toBytes sys frame opts g with
    | .overflow => none
    | .rejected s => some s.toGlobals
    | .accepted s => some s.toGlobals
  | .other => some g

/-- What a search works with. -/
structure Effective where
  extension : CString
  minbsize : Int
  maxbsize : Int
  targetDir : CString

/-- `check_args` returns 0 and leaves these values. -/
def Accepts (toBytes : CString → Nat → Int) (sys : System) (opts : List SearchOpt) (g : Globals)
    (r : Effective) : Prop :=
  ∃ frame s, checkArgs toBytes sys frame opts g = .accepted s ∧
    r = ⟨s.extension, s.minbsize, s.maxbsize, s.targetDir⟩

/-! ## The arguments that count -/

namespace SearchOpt

def extension? : SearchOpt → Option CString
  | .e optarg => some optarg
  | _ => none

def minSize? : SearchOpt → Option CString
  | .l optarg => some optarg
  | _ => none

def maxSize? : SearchOpt → Option CString
  | .h optarg => some optarg
  | _ => none

def directory? : SearchOpt → Option CString
  | .d optarg => some optarg
  | _ => none

/-- The argument fits into its array and is in range. -/
def Fits (toBytes : CString → Nat → Int) : SearchOpt → Prop
  | .e optarg => optarg.length < EXTMAX
  | .l optarg => (getSize toBytes optarg).isSome
  | .h optarg => (getSize toBytes optarg).isSome
  | .d optarg => optarg.length < PATHMAX
  | .t optarg => 1 ≤ atoi optarg ∧ atoi optarg ≤ 5
  | .other => True

def set (toBytes : CString → Nat → Int) (s : ArgState) : SearchOpt → ArgState
  | .e optarg => { s with tempExtension := optarg }
  | .l optarg => { s with minbsize := minOf ((getSize toBytes optarg).getD 0) }
  | .h optarg => { s with maxbsize := (getSize toBytes optarg).getD 0 }
  | .d optarg => { s with targetDir := optarg }
  | .t optarg => { s with threadNum := atoi optarg }
  | .other => s

end SearchOpt

/-- An option that is given more than once counts as it is given last. -/
def lastArg (pick : SearchOpt → Option CString) (opts : List SearchOpt) : Option CString :=
  (opts.filterMap pick).getLast?

/-- The checks on the options, for the last arguments of -e, -l and -h. -/
structure ValidArgs (toBytes : CString → Nat → Int) (opts : List SearchOpt) (e : CString)
    (min max : Int) : Prop where
  fits : ∀ o ∈ opts, o.Fits toBytes
  star : '*' ∈ e
  extension : '.' ∈ e → getExtension e ≠ some []
  sizes : min ≠ SIZE_ERROR ∧ max ≠ SIZE_ERROR
  range : max ≠ -1 → min ≤ max

/-- The global after the check: an argument without a dot leaves the old one. -/
def newExtension (e old : CString) : CString :=
  if '.' ∈ e then (getExtension e).getD [] else old

def Directory (sys : System) (path : CString) : Prop :=
  path.length < PATHMAX ∧ sys.access path = true ∧ sys.isDir path = true

def IsTarget (sys : System) (d behind target : CString) : Prop :=
  (if '~' ∈ d then target = getPathFromHome sys.home d behind
    else sys.realpath d = some target) ∧ Directory sys target

section

variable {toBytes : CString → Nat → Int} {sys : System} {opts : List SearchOpt}

@[simp] theorem andThen_eq_accepted {α β : Type} {r : Outcome α} {f : α → Outcome β} {b : β} :
    r.andThen f = .accepted b ↔ ∃ a, r = .accepted a ∧ f a = .accepted b := by
  cases r <;> simp [Outcome.andThen]

@[simp] theorem ite_overflow_eq_accepted {α : Type} {p : Prop} [Decidable p] {r : Outcome α}
    {b : α} : (if p then r else .overflow) = .accepted b ↔ p ∧ r = .accepted b := by
  split <;> simp_all

@[simp] theorem ite_rejected_eq_accepted {α : Type} {p : Prop} [Decidable p] {r : Outcome α}
    {s : ArgState} {b : α} : (if p then .rejected s else r) = .accepted b ↔ ¬p ∧ r = .accepted b := by
  split <;> simp_all

theorem parseOpt_accepted {s s' : ArgState} {o : SearchOpt} :
    parseOpt toBytes s o = .accepted s' ↔ o.Fits toBytes ∧ o.set toBytes s = s' := by
  cases o with
  | e optarg => simp [parseOpt, SearchOpt.Fits, SearchOpt.set]
  | d optarg => simp [parseOpt, SearchOpt.Fits, SearchOpt.set]
  | l optarg =>
    cases h : getSize toBytes optarg <;> simp [parseOpt, SearchOpt.Fits, SearchOpt.set, h]
  | h optarg =>
    cases h : getSize toBytes optarg <;> simp [parseOpt, SearchOpt.Fits, SearchOpt.set, h]
  | t optarg => simp [parseOpt, SearchOpt.Fits, SearchOpt.set]
  | other => simp [parseOpt, SearchOpt.Fits, SearchOpt.set]

theorem parse_accepted {s s' : ArgState} :
    parse toBytes s opts = .accepted s' ↔
      (∀ o ∈ opts, o.Fits toBytes) ∧ Run.exec (SearchOpt.set toBytes) s opts = s' := by
  induction opts generalizing s with
  | nil => simp [parse]
  | cons o opts ih => simp [parse, parseOpt_accepted, ih, and_assoc]

/-- What the loop leaves: the extension of before, and the last argument of each option. -/
theorem parsed (toBytes : CString → Nat → Int) (s : ArgState) {e l h d : CString}
    (he : lastArg SearchOpt.extension? opts = some e)
    (hl : lastArg SearchOpt.minSize? opts = some l)
    (hh : lastArg SearchOpt.maxSize? opts = some h)
    (hd : lastArg SearchOpt.directory? opts = some d) :
    ∃ threadNum, Run.exec (SearchOpt.set toBytes) s opts =
      ⟨⟨s.extension, minOf ((getSize toBytes l).getD 0), (getSize toBytes h).getD 0, threadNum⟩,
        e, d⟩ := by
  have hext := Run.exec_last (fun s : ArgState => s.extension) (fun _ => (none : Option Unit))
    (fun _ => []) (fun s o => by cases o <;> rfl : ∀ s o, (SearchOpt.set toBytes s o).extension = _)
    s opts
  have htemp := Run.exec_last (fun s : ArgState => s.tempExtension) SearchOpt.extension? id
    (fun s o => by cases o <;> rfl : ∀ s o, (SearchOpt.set toBytes s o).tempExtension = _) s opts
  have hmin := Run.exec_last (fun s : ArgState => s.minbsize) SearchOpt.minSize?
    (fun l => minOf ((getSize toBytes l).getD 0))
    (fun s o => by cases o <;> rfl : ∀ s o, (SearchOpt.set toBytes s o).minbsize = _) s opts
  have hmax := Run.exec_last (fun s : ArgState => s.maxbsize) SearchOpt.maxSize?
    (fun h => (getSize toBytes h).getD 0)
    (fun s o => by cases o <;> rfl : ∀ s o, (SearchOpt.set toBytes s o).maxbsize = _) s opts
  have hdir := Run.exec_last (fun s : ArgState => s.targetDir) SearchOpt.directory? id
    (fun s o => by cases o <;> rfl : ∀ s o, (SearchOpt.set toBytes s o).targetDir = _) s opts
  rw [lastArg] at he hl hh hd
  simp only [he, hl, hh, hd, Option.map_some, Option.getD_some, id_eq] at htemp hmin hmax hdir
  simp only [List.filterMap_none, List.getLast?_nil, Option.map_none, Option.getD_none] at hext
  refine ⟨(Run.exec (SearchOpt.set toBytes) s opts).threadNum, ?_⟩
  rw [← hext, ← htemp, ← hmin, ← hmax, ← hdir]

/-! ## The checks -/

theorem getExtension_of_dot {e : CString} (h : '.' ∈ e) : ∃ ext, getExtension e = some ext := by
  obtain ⟨before, after, hlast, -⟩ := strrchr_append_of_mem h []
  rw [getExtension, splitExtension]
  split
  · exact ⟨_, rfl⟩
  · exact ⟨after, by rw [hlast]; rfl⟩

theorem getExtension_length {e ext : CString} (h : getExtension e = some ext) :
    ext.length ≤ e.length := by
  obtain ⟨⟨before, ext⟩, hsplit, rfl⟩ := Option.map_eq_some_iff.mp h
  simp only [splitExtension] at hsplit
  split at hsplit
  · rename_i b found hs
    cases hsplit
    rw [(strstr_eq_some hs).1]
    simp
    omega
  · rw [(strrchr_eq_some hsplit).1]
    simp
    omega

theorem checkExtension_accepted {s s' : ArgState} (hfits : s.tempExtension.length < EXTMAX) :
    checkExtension s = .accepted s' ↔ '*' ∈ s.tempExtension ∧
      ('.' ∈ s.tempExtension → getExtension s.tempExtension ≠ some []) ∧
      { s with extension := newExtension s.tempExtension s.extension } = s' := by
  rw [checkExtension, ite_rejected_eq_accepted, not_not, newExtension]
  by_cases hdot : '.' ∈ s.tempExtension
  · obtain ⟨ext, hext⟩ := getExtension_of_dot hdot
    have hlen := (getExtension_length hext).trans_lt hfits
    simp [hdot, hext, hlen]
  · simp [hdot]

theorem checkSizes_accepted {s s' : ArgState} :
    checkSizes s = .accepted s' ↔ (s.minbsize ≠ SIZE_ERROR ∧ s.maxbsize ≠ SIZE_ERROR) ∧
      (s.maxbsize ≠ -1 → s.minbsize ≤ s.maxbsize) ∧ s = s' := by
  simp [checkSizes]

theorem checkDirectory_accepted {frame : Frame} {s s' : ArgState} :
    checkDirectory sys frame s = .accepted s' ↔
      ∃ target, IsTarget sys s.targetDir frame.behindHome target ∧
        { s with targetDir := target } = s' := by
  by_cases htilde : '~' ∈ s.targetDir
  · simp [checkDirectory, tempTargetDir, IsTarget, Directory, htilde, and_assoc]
  · cases h : sys.realpath s.targetDir <;>
      simp [checkDirectory, tempTargetDir, IsTarget, Directory, htilde, h, and_assoc]

theorem mem_of_lastArg {e : CString} (he : lastArg SearchOpt.extension? opts = some e) :
    SearchOpt.e e ∈ opts := by
  obtain ⟨o, ho, hpick⟩ := List.mem_filterMap.mp (List.mem_of_getLast? he)
  cases o with
  | e optarg => cases hpick; exact ho
  | _ => cases hpick

theorem isTarget_home {behind : CString} (h : Directory sys (sys.home ++ behind)) :
    IsTarget sys ['~'] behind (sys.home ++ behind) :=
  ⟨rfl, h⟩

theorem isTarget_unique {d b₁ b₂ t₁ t₂ : CString}
    (hunique : d = ['~'] → ∀ behind behind', Directory sys (sys.home ++ behind) →
      Directory sys (sys.home ++ behind') → behind = behind')
    (h₁ : IsTarget sys d b₁ t₁) (h₂ : IsTarget sys d b₂ t₂) : t₁ = t₂ := by
  obtain ⟨ht₁, hdir₁⟩ := h₁
  obtain ⟨ht₂, hdir₂⟩ := h₂
  by_cases htilde : '~' ∈ d
  · rw [if_pos htilde, getPathFromHome] at ht₁ ht₂
    by_cases hone : d.length = 1
    · obtain ⟨c, rfl⟩ := List.length_eq_one_iff.mp hone
      rw [List.mem_singleton] at htilde
      rw [if_pos hone] at ht₁ ht₂
      subst ht₁ ht₂
      rw [hunique (by rw [htilde]) _ _ hdir₁ hdir₂]
    · rw [if_neg hone] at ht₁ ht₂
      rw [ht₁, ht₂]
  · rw [if_neg htilde] at ht₁ ht₂
    exact Option.some_inj.mp (ht₁.symm.trans ht₂)

/-- A command line with a wrong size is rejected only after the extension is set. -/
theorem staleExtension (toBytes : CString → Nat → Int) (sys : System) :
    ∃ g, Run.exec? (command toBytes) .initial
        [.search sys ⟨[], [], []⟩ [.e ['*', '.', 'c'], .l ['x']]] = some g ∧
      g.extension = ['c'] :=
  ⟨_, rfl, rfl⟩

variable {e l h d : CString} (he : lastArg SearchOpt.extension? opts = some e)
  (hl : lastArg SearchOpt.minSize? opts = some l) (hh : lastArg SearchOpt.maxSize? opts = some h)
  (hd : lastArg SearchOpt.directory? opts = some d)

include he hl hh hd

theorem checkArgs_accepted (toBytes : CString → Nat → Int) (sys : System) (frame : Frame)
    (g : Globals) :
    ∃ threadNum, ∀ s, checkArgs toBytes sys frame opts g = .accepted s ↔
      ValidArgs toBytes opts e (minOf ((getSize toBytes l).getD 0))
          ((getSize toBytes h).getD 0) ∧
        ∃ target, IsTarget sys d frame.behindHome target ∧
          s = ⟨⟨newExtension e g.extension, minOf ((getSize toBytes l).getD 0),
            (getSize toBytes h).getD 0, threadNum⟩, e, target⟩ := by
  obtain ⟨threadNum, hparsed⟩ :=
    parsed toBytes ⟨g, frame.tempExtension, frame.targetDir⟩ he hl hh hd
  have hmem := mem_of_lastArg he
  refine ⟨threadNum, fun s => ?_⟩
  simp only [checkArgs, andThen_eq_accepted, parse_accepted, hparsed]
  constructor
  · rintro ⟨_, ⟨hfits, rfl⟩, _, hext, _, hsizes, hdir⟩
    obtain ⟨hstar, hempty, rfl⟩ := (checkExtension_accepted (by exact hfits _ hmem)).mp hext
    obtain ⟨herr, hrange, rfl⟩ := checkSizes_accepted.mp hsizes
    obtain ⟨target, htarget, rfl⟩ := checkDirectory_accepted.mp hdir
    exact ⟨⟨hfits, hstar, hempty, herr, hrange⟩, target, htarget, rfl⟩
  · rintro ⟨hvalid, target, htarget, rfl⟩
    exact ⟨_, ⟨hvalid.fits, rfl⟩, _,
      (checkExtension_accepted (by exact hvalid.fits _ hmem)).mpr
        ⟨hvalid.star, hvalid.extension, rfl⟩, _,
      checkSizes_accepted.mpr ⟨hvalid.sizes, hvalid.range, rfl⟩,
      checkDirectory_accepted.mpr ⟨target, htarget, rfl⟩⟩

theorem accepts_iff (toBytes : CString → Nat → Int) (sys : System) (g : Globals) (r : Effective) :
    Accepts toBytes sys opts g r ↔
      ValidArgs toBytes opts e (minOf ((getSize toBytes l).getD 0))
          ((getSize toBytes h).getD 0) ∧
        ∃ behind target, IsTarget sys d behind target ∧
          r = ⟨newExtension e g.extension, minOf ((getSize toBytes l).getD 0),
            (getSize toBytes h).getD 0, target⟩ := by
  constructor
  · rintro ⟨frame, s, hs, rfl⟩
    obtain ⟨threadNum, hiff⟩ := checkArgs_accepted he hl hh hd toBytes sys frame g
    obtain ⟨hvalid, target, htarget, rfl⟩ := (hiff s).mp hs
    exact ⟨hvalid, frame.behindHome, target, htarget, rfl⟩
  · rintro ⟨hvalid, behind, target, htarget, rfl⟩
    obtain ⟨threadNum, hiff⟩ := checkArgs_accepted he hl hh hd toBytes sys ⟨[], [], behind⟩ g
    exact ⟨_, _, (hiff _).mpr ⟨hvalid, target, htarget, rfl⟩, rfl⟩

/-- Earlier searches make no difference for a command line with all four options when it is
rejected anyway, or sets the extension, and leaves the rest of the path to nothing else. -/
theorem search_independent_iff (toBytes : CString → Nat → Int) (sys : System) :
    Run.Independent (command toBytes) .initial (Accepts toBytes sys opts) ↔
      ¬(ValidArgs toBytes opts e (minOf ((getSize toBytes l).getD 0))
          ((getSize toBytes h).getD 0) ∧ ∃ behind target, IsTarget sys d behind target) ∨
        '.' ∈ e ∧ (d = ['~'] → ∀ behind behind', Directory sys (sys.home ++ behind) →
          Directory sys (sys.home ++ behind') → behind = behind') := by
  have haccepts := accepts_iff he hl hh hd toBytes sys
  constructor
  · intro hind
    by_contra hcon
    rw [not_or, not_not, not_and_or] at hcon
    obtain ⟨⟨hvalid, behind, target, htarget⟩, hdot | htilde⟩ := hcon
    · -- the extension is what an earlier command line has set, also one that is rejected
      obtain ⟨g, hg, hext⟩ := staleExtension toBytes sys
      have h := hind [] [_] .initial g _ _ rfl hg
        ((haccepts _ _).mpr ⟨hvalid, behind, target, htarget, rfl⟩)
        ((haccepts _ _).mpr ⟨hvalid, behind, target, htarget, rfl⟩)
      have hstale := congrArg Effective.extension h
      simp [newExtension, hdot, hext, Globals.initial] at hstale
    · push Not at htilde
      obtain ⟨rfl, b₁, b₂, hb₁, hb₂, hne⟩ := htilde
      have h := hind [] [] .initial .initial _ _ rfl rfl
        ((haccepts _ _).mpr ⟨hvalid, b₁, _, isTarget_home hb₁, rfl⟩)
        ((haccepts _ _).mpr ⟨hvalid, b₂, _, isTarget_home hb₂, rfl⟩)
      exact hne (List.append_cancel_left (congrArg Effective.targetDir h))
  · rintro hcon as₁ as₂ g₁ g₂ r₁ r₂ - - h₁ h₂
    obtain ⟨hvalid, b₁, t₁, ht₁, rfl⟩ := (haccepts _ _).mp h₁
    obtain ⟨-, b₂, t₂, ht₂, rfl⟩ := (haccepts _ _).mp h₂
    rcases hcon with hno | ⟨hdot, hunique⟩
    · exact absurd ⟨hvalid, b₁, t₁, ht₁⟩ hno
    · rw [newExtension, newExtension, if_pos hdot, if_pos hdot, isTarget_unique hunique ht₁ ht₂]

end

/-! ## Two searches in a row -/

/-- A system on which every path is that of a directory. -/
def anyDirectory : System := ⟨['/', 'h'], some, fun _ => true, fun _ => true⟩

/-- `-e extension -l ~ -h ~ -d /`. -/
def searchRoot (extension : CString) : List SearchOpt :=
  [.e extension, .l ['~'], .h ['~'], .d ['/']]

theorem search_independent_extension :
    Run.Independent (command wholeBytes) .initial
      (Accepts wholeBytes anyDirectory (searchRoot ['*', '.', 'c'])) :=
  (search_independent_iff (e := ['*', '.', 'c']) (d := ['/']) rfl rfl rfl rfl wholeBytes
    anyDirectory).mpr (.inr ⟨by simp, by simp⟩)

/-- A search for all files after one for the files of an extension still has that extension. -/
theorem extension_leaks :
    ¬Run.Independent (command wholeBytes) .initial
      (Accepts wholeBytes anyDirectory (searchRoot ['*'])) := by
  intro hind
  have h := hind [] [.search anyDirectory ⟨[], [], []⟩ (searchRoot ['*', '.', 'c'])]
    .initial ⟨['c'], 0, -1, 1⟩ _ _ rfl rfl ⟨⟨[], [], []⟩, _, rfl, rfl⟩ ⟨⟨[], [], []⟩, _, rfl, rfl⟩
  cases congrArg Effective.extension h

end Sfinder
end SsuComputer

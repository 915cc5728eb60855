import SynthesisRepo.Rtlil.Netlist

/-! # Options of `clkbufmap`

The argument loop of `ClkbufmapPass::execute` (lines 84-114) and
`split_portname_pair`.  The selection arguments themselves are handled by the kernel's
selection machinery; the pass only records whether one was given (`select`).
-/

namespace SynthesisRepo.Clkbufmap

/-- `split_portname_pair`: split `port1` at its first colon; without a colon `port2` keeps
the value it had. -/
def splitPortnamePair (port1 port2 : String) : String × String :=
  match port1.toList.span (· ≠ ':') with
  | (before, _ :: after) => (String.mk before, String.mk after)
  | (_, []) => (port1, port2)

/-- What the options of one `clkbufmap` call configure. -/
structure Options where
  bufCelltype : String
  bufPortname : String
  bufPortname2 : String
  inpadCelltype : String
  inpadPortname : String
  inpadPortname2 : String
  select : Bool
  deriving DecidableEq, Repr

/-- All strings empty, no selection: the locals' initial values. -/
def Options.empty : Options := ⟨"", "", "", "", "", "", false⟩

/-- The `for (argidx = 1; ...)` loop: consume `-buf` and `-inpad` options that have their
two arguments, and stop at the first other argument. -/
def parseOptions : List String → Options → Options × List String
  | "-buf" :: celltype :: portname :: rest, options =>
    let (port1, port2) := splitPortnamePair portname options.bufPortname2
    parseOptions rest
      { options with bufCelltype := celltype, bufPortname := port1, bufPortname2 := port2 }
  | "-inpad" :: celltype :: portname :: rest, options =>
    let (port1, port2) := splitPortnamePair portname options.inpadPortname2
    parseOptions rest
      { options with inpadCelltype := celltype, inpadPortname := port1, inpadPortname2 := port2 }
  | rest, options => (options, rest)

/-- Lines 113-114: the pass stops when neither cell type is given. -/
def checkConfigured (options : Options) : Except String Options :=
  if options.bufCelltype.isEmpty ∧ options.inpadCelltype.isEmpty then
    .error "Either the -buf option or -inpad option is required.\n"
  else .ok options

/-- Lines 84-114: the options of `args` (whose head is the pass name), or the error the
pass stops with.  A remaining argument is a selection (`select`), unless it starts with a
dash, which `extra_args` rejects. -/
def executeOptions (args : List String) : Except String Options :=
  let (options, rest) := parseOptions args.tail .empty
  match rest with
  | [] => checkConfigured options
  | arg :: _ =>
    if arg.startsWith "-" then .error "Unknown option or option in arguments."
    else checkConfigured { options with select := true }

end SynthesisRepo.Clkbufmap

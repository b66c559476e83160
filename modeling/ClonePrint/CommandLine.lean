import ClonePrint.Text.Digits

/-!
# Command lines

A command line names a command and its options. An option has a long name and
mostly a short one; its value follows it or is attached to it. Short names may be
joined, and behind two hyphens everything is taken literally. Some options may
stand in front of the command as well as behind it; the latter place wins.
-/
namespace ClonePrint

inductive Flag where
  | verbose
  | config
  | threads
  | sequential
  | language
  | help
deriving Repr, DecidableEq

namespace Flag

def long : Flag → String
  | verbose => "verbose"
  | config => "config"
  | threads => "threads"
  | sequential => "sequential"
  | language => "language"
  | help => "help"

def short? : Flag → Option Char
  | verbose => some 'v'
  | config => some 'c'
  | threads => some 't'
  | sequential => none
  | language => some 'l'
  | help => some 'h'

def takesValue : Flag → Bool
  | config | threads | language => true
  | _ => false

/-- The options that may stand anywhere. -/
def common : List Flag := [verbose, config, help]

/-- Read the number of an option: digits, possibly behind a plus sign, of at most
64 bits. -/
def number? (value : String) : Option Nat :=
  let digits := match value.toList with
    | '+' :: digits => digits
    | digits => digits
  (Text.readDigits? 10 digits).filter (· < Nat.pow 2 64)

def accepts (value : String) : Flag → Bool
  | threads => (number? value).isSome
  | config => !value.isEmpty
  | _ => true

end Flag

/-- Why a command line is not carried out. -/
inductive Refusal where
  | help
  | usage
deriving Repr, DecidableEq

/-- What was given on one side of a command. Operands are what is no option; once the text is
literal everything is one. -/
structure Given where
  flags : List (Flag × String) := []
  operands : List String := []
  pending : Option Flag := none
  literal : Bool := false
deriving Repr, DecidableEq

namespace Given

def has (flag : Flag) (g : Given) : Bool := g.flags.any (·.1 == flag)

def value? (flag : Flag) (g : Given) : Option String :=
  (g.flags.find? (·.1 == flag)).map Prod.snd

/-- Record an option. No option may be repeated. -/
def record (flag : Flag) (value : String) (g : Given) : Except Refusal Given :=
  if flag = .help then .error .help
  else if g.has flag || !flag.accepts value then .error .usage
  else .ok { g with flags := g.flags ++ [(flag, value)], pending := none }

def takeLong (known : List Flag) (text : Text) (g : Given) : Except Refusal Given :=
  let name := text.takeWhile (· != '=')
  let attached := (text.dropWhile (· != '=')).tail?
  match known.find? (·.long.toList == name), attached with
  | none, _ => .error .usage
  | some flag, some value =>
      if flag.takesValue then g.record flag (String.ofList value) else .error .usage
  | some flag, none =>
      if flag.takesValue then .ok { g with pending := some flag } else g.record flag ""

/-- Take options under their short names. The value of one may be attached, also
with an equals sign. -/
def takeShort (known : List Flag) (g : Given) : Text → Except Refusal Given
  | [] => .ok g
  | c :: more =>
      match known.find? (·.short? == some c) with
      | none => .error .usage
      | some flag =>
          if !flag.takesValue then (g.record flag "").bind fun g => takeShort known g more
          else
            match more with
            | [] => .ok { g with pending := some flag }
            | '=' :: value => g.record flag (String.ofList value)
            | value => g.record flag (String.ofList value)

def take (known : List Flag) (argument : String) (g : Given) : Except Refusal Given :=
  let operand : Except Refusal Given :=
    match g.pending with
    | some flag => g.record flag argument
    | none => .ok { g with operands := g.operands ++ [argument] }
  if g.literal then operand
  else
    match argument.toList with
    | ['-', '-'] => if g.pending.isSome then .error .usage else .ok { g with literal := true }
    | '-' :: '-' :: text => if g.pending.isSome then .error .usage else g.takeLong known text
    | '-' :: c :: text =>
        if g.pending.isSome then .error .usage else g.takeShort known (c :: text)
    | _ => operand

/-- Take arguments up to the first operand, with what follows it. -/
def takeUntilOperand (known : List Flag) (g : Given) :
    List String → Except Refusal (Given × List String)
  | [] => .ok (g, [])
  | argument :: more => do
      let g ← g.take known argument
      if g.operands.isEmpty then takeUntilOperand known g more else return (g, more)

/-- No option waits for its value. -/
def complete (g : Given) : Except Refusal Given :=
  if g.pending.isSome then .error .usage else .ok g

end Given

inductive Command where
  | parse (path : String) (threads : Option Nat) (sequential : Bool)
  | worker (language : String)
deriving Repr, DecidableEq

structure CommandLine where
  command : Command
  verbose : Bool := false
  config : Option String := none
deriving Repr, DecidableEq

namespace CommandLine

def behind (known : List Flag) (arguments : List String) : Except Refusal Given :=
  (arguments.foldlM (fun (g : Given) argument => g.take (known ++ Flag.common) argument) {}).bind
    Given.complete

def join (front rear : Given) (command : Command) : CommandLine :=
  { command
    verbose := front.has .verbose || rear.has .verbose
    config := (rear.value? .config).or (front.value? .config) }

def ofArguments (arguments : List String) : Except Refusal CommandLine := do
  let (front, more) ← Given.takeUntilOperand Flag.common {} arguments
  let front ← front.complete
  if front.literal then .error .usage
  else
    match front.operands with
    | ["parse"] =>
        let rear ← behind [.threads, .sequential] more
        match rear.operands with
        | [path] =>
            if path.isEmpty then .error .usage
            else
              return join front rear
                (.parse path ((rear.value? .threads).bind Flag.number?) (rear.has .sequential))
        | _ => .error .usage
    | ["worker"] =>
        let rear ← behind [.language] more
        match rear.operands, rear.value? .language with
        | [], some language => return join front rear (.worker language)
        | _, _ => .error .usage
    | ["help"] =>
        if [[], ["parse"], ["worker"], ["help"]].contains more then .error .help
        else .error .usage
    | _ => .error .usage

end CommandLine

end ClonePrint

import Mathlib.Data.List.Basic

namespace SvrFrame
set_option autoImplicit true

inductive LogLevel where
  | unknow | debug | info | warn | error | fatal
  deriving DecidableEq, Repr

namespace LogLevel

def value : LogLevel → Nat
  | unknow => 0
  | debug => 1
  | info => 2
  | warn => 3
  | error => 4
  | fatal => 5

instance : LE LogLevel := ⟨fun a b => a.value ≤ b.value⟩

instance (a b : LogLevel) : Decidable (a ≤ b) := inferInstanceAs (Decidable (a.value ≤ b.value))

def toString : LogLevel → String
  | debug => "DEBUG"
  | info => "INFO"
  | warn => "WARN"
  | error => "ERROR"
  | fatal => "FATAL"
  | unknow => "UNKNOW"

def fromString (str : String) : LogLevel :=
  if str = "debug" then debug
  else if str = "info" then info
  else if str = "warn" then warn
  else if str = "error" then error
  else if str = "fatal" then fatal
  else if str = "DEBUG" then debug
  else if str = "INFO" then info
  else if str = "WARN" then warn
  else if str = "ERROR" then error
  else if str = "FATAL" then fatal
  else unknow

theorem le_refl (l : LogLevel) : l ≤ l := Nat.le_refl _

theorem le_trans {a b c : LogLevel} (h : a ≤ b) (h' : b ≤ c) : a ≤ c := Nat.le_trans h h'

end LogLevel

abbrev LoggerId := Nat

structure LogEvent where
  mFile : String
  mLine : Int32
  mElapse : UInt32
  mThreadId : UInt32
  mFiberId : UInt32
  mTime : UInt64
  mThreadName : String
  content : String
  mLogger : LoggerId
  mLevel : LogLevel
  deriving DecidableEq, Repr

inductive FormatItem where
  | message | level | elapse | name | threadId | newLine
  | dateTime (format : String)
  | filename | line | tab | fiberId | threadName
  | string (str : String)
  deriving DecidableEq, Repr

/-- What `format` takes from outside: `strftime` of the local time, and the names of the loggers
the events point to. -/
structure FormatEnv where
  strftime : String → UInt64 → String
  getName : LoggerId → String

def FormatItem.format (env : FormatEnv) (level : LogLevel) (event : LogEvent) : FormatItem → String
  | message => event.content
  | .level => level.toString
  | elapse => toString event.mElapse
  | name => env.getName event.mLogger
  | threadId => toString event.mThreadId
  | newLine => "\n"
  | dateTime format => env.strftime format event.mTime
  | filename => event.mFile
  | line => toString event.mLine.toUInt32
  | tab => "\t"
  | fiberId => toString event.mFiberId
  | threadName => event.mThreadName
  | string str => str

def FormatItem.newDateTime (format : String) : FormatItem :=
  .dateTime (if format = "" then "%Y-%m-%d %H:%M:%S" else format)

def FormatItem.find (str fmt : String) : Option FormatItem :=
  if str = "m" then some .message
  else if str = "p" then some .level
  else if str = "r" then some .elapse
  else if str = "c" then some .name
  else if str = "t" then some .threadId
  else if str = "n" then some .newLine
  else if str = "d" then some (.newDateTime fmt)
  else if str = "f" then some .filename
  else if str = "l" then some .line
  else if str = "T" then some .tab
  else if str = "F" then some .fiberId
  else if str = "N" then some .threadName
  else none

structure LogFormatter where
  mPattern : String
  mItems : List FormatItem
  bError : Bool
  deriving DecidableEq, Repr

namespace LogFormatter

/-- An element of `vec`; the type is 1 for a directive, 0 for a text. -/
structure Piece where
  str : String
  fmt : String
  type : Nat
  deriving DecidableEq, Repr

/-- The variables of the inner loop of `Init`. -/
structure Directive where
  n : Nat
  fmtStatus : Nat
  fmtBegin : Nat
  str : String
  fmt : String
  deriving DecidableEq, Repr

def substr (p : List Char) (pos len : Nat) : String := String.ofList ((p.drop pos).take len)

/-- One turn of the inner loop for the `%` at `i`; the flag says whether the loop goes on. -/
def directiveStep (p : List Char) (i : Nat) (k : Directive) : Directive × Bool :=
  let c := p.getD k.n '\x00'
  if k.fmtStatus = 0 ∧ !c.isAlpha ∧ c ≠ '{' ∧ c ≠ '}' then
    ({ k with str := substr p (i + 1) (k.n - i - 1) }, false)
  else if k.fmtStatus = 0 ∧ c = '{' then
    ({ k with
      str := substr p (i + 1) (k.n - i - 1), fmtStatus := 1, fmtBegin := k.n, n := k.n + 1 }, true)
  else if k.fmtStatus = 1 ∧ c = '}' then
    ({ k with
      fmt := substr p (k.fmtBegin + 1) (k.n - k.fmtBegin - 1), fmtStatus := 0, n := k.n + 1 }, false)
  else if k.n + 1 = p.length ∧ k.str = "" then
    ({ k with n := k.n + 1, str := String.ofList (p.drop (i + 1)) }, true)
  else ({ k with n := k.n + 1 }, true)

/-- The inner loop; each turn that goes on moves `n`, so the length of the pattern is fuel
enough. -/
def directiveLoop (p : List Char) (i : Nat) : Nat → Directive → Directive
  | 0, k => k
  | fuel + 1, k =>
    if k.n < p.length then
      match directiveStep p i k with
      | (k', true) => directiveLoop p i fuel k'
      | (k', false) => k'
    else k

structure Scan where
  i : Nat
  nstr : String
  vec : List Piece
  bError : Bool
  deriving DecidableEq, Repr

/-- `nstr` becomes a text of its own, unless it is empty. -/
def flush (vec : List Piece) (nstr : String) : List Piece :=
  if nstr = "" then vec else vec ++ [⟨nstr, "", 0⟩]

/-- One turn of the outer loop with its `++i`. -/
def scanStep (p : List Char) (s : Scan) : Scan :=
  let c := p.getD s.i '\x00'
  if c ≠ '%' then { s with i := s.i + 1, nstr := s.nstr.push c }
  else if s.i + 1 < p.length ∧ p.getD (s.i + 1) '\x00' = '%' then
    { s with i := s.i + 1, nstr := s.nstr.push '%' }
  else
    let k := directiveLoop p s.i p.length ⟨s.i + 1, 0, 0, "", ""⟩
    if k.fmtStatus = 0 then
      { s with i := k.n - 1 + 1, nstr := "", vec := flush s.vec s.nstr ++ [⟨k.str, k.fmt, 1⟩] }
    else
      { s with i := s.i + 1, bError := true, vec := s.vec ++ [⟨"<<pattern_error>>", k.fmt, 0⟩] }

/-- The outer loop; every turn moves `i`. -/
def scanLoop (p : List Char) : Nat → Scan → Scan
  | 0, s => s
  | fuel + 1, s => if s.i < p.length then scanLoop p fuel (scanStep p s) else s

/-- The item for an element of `vec`, and whether it is an error. -/
def makeItem (x : Piece) : FormatItem × Bool :=
  if x.type = 0 then (.string x.str, false)
  else match FormatItem.find x.str x.fmt with
    | none => (.string ("<<error_format %" ++ x.str ++ ">>"), true)
    | some item => (item, false)

/-- The constructor, with `Init`. -/
def new (pattern : String) : LogFormatter :=
  let p := pattern.toList
  let s := scanLoop p p.length ⟨0, "", [], false⟩
  let items := (flush s.vec s.nstr).map makeItem
  { mPattern := pattern
    mItems := items.map Prod.fst
    bError := s.bError || items.any Prod.snd }

@[simp] theorem new_mPattern (pattern : String) : (new pattern).mPattern = pattern := rfl

def isError (f : LogFormatter) : Bool := f.bError

def getPattern (f : LogFormatter) : String := f.mPattern

def format (f : LogFormatter) (env : FormatEnv) (level : LogLevel) (event : LogEvent) : String :=
  f.mItems.foldl (fun ss item => ss ++ item.format env level event) ""

end LogFormatter
end SvrFrame

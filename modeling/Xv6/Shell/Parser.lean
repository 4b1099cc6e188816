import Xv6.Lib.Hoare
import Xv6.Strings.Chars

/-!
# The parser of the shell

`gettoken`, `peek`, `parsecmd` and the functions between them, from `user/sh.c`.  A command
line is a list of bytes that are not NUL.  A pointer into the line is the text from there to
the end `es` of the line, so the cursor `*ps` is such a text, and it is the state of the
functions that take `ps`.

The functions are mutually recursive, with a bound on the depth of the calls.  A call that
reaches the bound stops with `fuel`, which the source does not have.  `malloc` is taken to
succeed.
-/

namespace Xv6.Shell

/-- A byte of a string. -/
abbrev Byte := { c : UInt8 // c ≠ 0 }

/-- A string, or a pointer to the rest of one. -/
abbrev Text := List Byte

def MAXARGS : Nat := 10

def O_RDONLY : Nat := 0x000

def O_WRONLY : Nat := 0x001

def O_CREATE : Nat := 0x200

def O_TRUNC : Nat := 0x400

/-- A counted string: the pointers `q` and `eq`. -/
structure Span where
  start : Text
  stop : Text

/-- `struct cmd`, over any type of strings. -/
inductive Cmd (σ : Type) where
  | exec (argv : List σ)
  | redir (cmd : Cmd σ) (file : σ) (mode fd : Nat)
  | pipe (left right : Cmd σ)
  | list (left right : Cmd σ)
  | back (cmd : Cmd σ)
  deriving DecidableEq

/-- `cmd->argv[argc++] = q`, where `cmd` is the command that the redirections are about. -/
def Cmd.addArg {σ : Type} (a : σ) : Cmd σ → Cmd σ
  | .exec argv => .exec (argv ++ [a])
  | .redir cmd file mode fd => .redir (cmd.addArg a) file mode fd
  | cmd => cmd

/-- Why a run stops. -/
inductive Stop where
  | panic (s : String)
  | fuel

/-- A function that takes `ps`. -/
abbrev Parser (α : Type) := Hoare.Prog Text Stop α

/-! ## Tokens -/

def chars (s : List Char) : List UInt8 := s.map Char.toUInt8

def whitespace : List UInt8 := chars [' ', '\t', '\r', '\n', '\x0b']

def symbols : List UInt8 := chars ['<', '|', '>', '&', ';', '(', ')']

/-- `strchr` finds a character. -/
def strchr (s : List UInt8) (c : UInt8) : Bool := s.contains c

/-- This is what `strchr` of `user/ulib.c` does where the characters are a string in memory. -/
theorem strchr_holds {m : Strings.Mem} {a : Move.Addr} {s : List UInt8} {fuel : Nat}
    (h : Strings.Holds m a (s ++ [0])) (hnul : 0 ∉ s) (hfuel : s.length < fuel) (c : UInt8) :
    (Strings.strchr m c fuel a).map Option.isSome = some (strchr s c) := by
  by_cases hc : c ∈ s
  · have hc0 : c ≠ 0 := ne_of_mem_of_not_mem hc hnul
    obtain ⟨xs, ys, rfl, hxs⟩ := List.eq_append_cons_of_mem hc
    rw [List.append_assoc] at h
    rw [List.length_append] at hfuel
    have hx0 : 0 ∉ xs := fun h0 => hnul (List.mem_append_left _ h0)
    rw [Strings.strchr_found h hx0 hxs hc0 (Nat.lt_of_le_of_lt (Nat.le_add_right ..) hfuel)]
    simp [strchr]
  · rw [Strings.strchr_none h hnul hc hfuel]
    simp [strchr, hc]

/-- `*s`. -/
def deref : Text → UInt8
  | [] => 0
  | c :: _ => c.val

def isWhite (c : Byte) : Bool := strchr whitespace c.val

def isWord (c : Byte) : Bool := !strchr whitespace c.val && !strchr symbols c.val

/-- `while(s < es && strchr(whitespace, *s)) s++`. -/
def skip (s : Text) : Text := s.dropWhile isWhite

/-- What `gettoken` returns, with `*q` and `*eq`. -/
structure Got where
  ret : UInt8
  q : Text
  eq : Text

def Got.span (g : Got) : Span := ⟨g.q, g.eq⟩

/-- The switch of `gettoken`. -/
def scan (s : Text) : Got :=
  let c := deref s
  if c = 0 then ⟨0, s, s⟩
  else if strchr (chars ['|', '(', ')', ';', '&', '<']) c then ⟨c, s, s.tail⟩
  else if c = '>'.toUInt8 then
    if deref s.tail = '>'.toUInt8 then ⟨'+'.toUInt8, s, s.tail.tail⟩ else ⟨c, s, s.tail⟩
  else ⟨'a'.toUInt8, s, s.dropWhile isWord⟩

def gettoken : Parser Got := do
  let s ← get
  let g := scan (skip s)
  set (skip g.eq)
  return g

def peek (toks : List Char) : Parser Bool := do
  let s ← get
  set (skip s)
  let c := deref (skip s)
  return c ≠ 0 && strchr (chars toks) c

/-! ## Commands -/

/-- The switch of `parseredirs`. -/
def redircmd (tok : UInt8) (cmd : Cmd Span) (file : Span) : Cmd Span :=
  if tok = '<'.toUInt8 then .redir cmd file O_RDONLY 0
  else if tok = '>'.toUInt8 then .redir cmd file (O_WRONLY ||| O_CREATE ||| O_TRUNC) 1
  else if tok = '+'.toUInt8 then .redir cmd file (O_WRONLY ||| O_CREATE) 1
  else cmd

/-- The loop of `parseredirs`. -/
def redirs : Nat → Cmd Span → Parser (Cmd Span)
  | 0, _ => throw .fuel
  | n + 1, cmd => do
      if ← peek ['<', '>'] then
        let tok ← gettoken
        let file ← gettoken
        if file.ret ≠ 'a'.toUInt8 then throw (.panic "missing file for redirection")
        else redirs n (redircmd tok.ret cmd file.span)
      else return cmd

/-- Each round takes at least one character, so the length of the rest is enough. -/
def parseredirs (cmd : Cmd Span) : Parser (Cmd Span) := do
  let s ← get
  redirs (s.length + 1) cmd

/-- The loop of `parseexec`. -/
def args : Nat → Nat → Cmd Span → Parser (Cmd Span)
  | 0, _, _ => throw .fuel
  | n + 1, argc, ret => do
      if ← peek ['|', ')', '&', ';'] then return ret
      else
        let tok ← gettoken
        if tok.ret = 0 then return ret
        else if tok.ret ≠ 'a'.toUInt8 then throw (.panic "syntax")
        else if argc + 1 ≥ MAXARGS then throw (.panic "too many args")
        else
          let ret ← parseredirs (ret.addArg tok.span)
          args n (argc + 1) ret

/-- The loop of `parseline`. -/
def backs : Nat → Cmd Span → Parser (Cmd Span)
  | 0, _ => throw .fuel
  | n + 1, cmd => do
      if ← peek ['&'] then
        let _ ← gettoken
        backs n (.back cmd)
      else return cmd

mutual

def parseline : Nat → Parser (Cmd Span)
  | 0 => throw .fuel
  | n + 1 => do
      let cmd ← parsepipe n
      let s ← get
      let cmd ← backs (s.length + 1) cmd
      if ← peek [';'] then
        let _ ← gettoken
        let right ← parseline n
        return .list cmd right
      else return cmd

def parsepipe : Nat → Parser (Cmd Span)
  | 0 => throw .fuel
  | n + 1 => do
      let cmd ← parseexec n
      if ← peek ['|'] then
        let _ ← gettoken
        let right ← parsepipe n
        return .pipe cmd right
      else return cmd

def parseexec : Nat → Parser (Cmd Span)
  | 0 => throw .fuel
  | n + 1 => do
      if ← peek ['('] then parseblock n
      else
        let ret ← parseredirs (.exec [])
        let s ← get
        args (s.length + 1) 0 ret

def parseblock : Nat → Parser (Cmd Span)
  | 0 => throw .fuel
  | n + 1 => do
      if ← peek ['('] then
        let _ ← gettoken
        let cmd ← parseline n
        if ← peek [')'] then
          let _ ← gettoken
          parseredirs cmd
        else throw (.panic "syntax - missing )")
      else throw (.panic "parseblock")

end

/-- `nulterminate` in the memory of a line of `len` bytes and its NUL. -/
def nulterminate (len : Nat) : Cmd Span → List UInt8 → List UInt8
  | .exec argv, mem => argv.foldl (fun mem a => mem.set (len - a.stop.length) 0) mem
  | .redir cmd file _ _, mem => (nulterminate len cmd mem).set (len - file.stop.length) 0
  | .pipe left right, mem => nulterminate len right (nulterminate len left mem)
  | .list left right, mem => nulterminate len right (nulterminate len left mem)
  | .back cmd, mem => nulterminate len cmd mem

/-- `parsecmd` up to `nulterminate`. -/
def parseAll (fuel : Nat) : Parser (Cmd Span) := do
  let cmd ← parseline fuel
  let _ ← peek []
  let s ← get
  if s ≠ [] then throw (.panic "syntax") else return cmd

/-- `parsecmd`: the command, and the line as `nulterminate` leaves it. -/
def parsecmd (line : Text) : Except Stop (Cmd Span × List UInt8) :=
  match parseAll (4 * line.length + 4) line with
  | .ok (cmd, _) => .ok (cmd, nulterminate line.length cmd (line.map Subtype.val ++ [0]))
  | .error e => .error e

end Xv6.Shell

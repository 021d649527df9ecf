import MiniVisor.Checked

/-!
# The console

`console.rs` takes the bytes of the operator one by one. `write` stores up to 64 of them, and at
the end of a line `exec_command` looks for a command in what is stored. `linesOf` says which lines an
input has : a CR, an LF that does not come right behind a CR, or both together, end one.

The console runs a command for each line, with the first 64 bytes of it, exactly if in the input
each LF behind some CR comes right behind a CR (`consoleRun_lines_iff`). `ignore_lf` is meant for
the LF of a CR LF. Nothing resets it, so that after the first CR every LF is ignored. -/

namespace MiniVisor

open Machine

def consoleBufferSize : ℕ := 64
def asciiCr : BitVec 8 := 0x0D#8
def asciiLf : BitVec 8 := 0x0A#8

/-- `u8::is_ascii_control`. -/
def isAsciiControl (data : BitVec 8) : Bool :=
  data.toNat < 0x20 || data.toNat = 0x7F

/-- `char::is_whitespace`. -/
def isWhitespace (c : Char) : Bool :=
  let n := c.toNat
  (0x09 ≤ n && n ≤ 0x0D) || n = 0x20 || n = 0x85 || n = 0xA0 || n = 0x1680 ||
    (0x2000 ≤ n && n ≤ 0x200A) || n = 0x2028 || n = 0x2029 || n = 0x202F || n = 0x205F || n = 0x3000

/-- `str::split_whitespace`. -/
def splitWhitespace (s : String) : List String :=
  ((s.toList.splitOnP isWhitespace).filter (· ≠ [])).map String.ofList

/-- `char::to_digit`. -/
def toDigit (radix : ℕ) (c : Char) : Option ℕ :=
  let n := c.toNat
  let digit :=
    if '0'.toNat ≤ n ∧ n ≤ '9'.toNat then some (n - '0'.toNat)
    else if 'a'.toNat ≤ n ∧ n ≤ 'z'.toNat then some (n - 'a'.toNat + 10)
    else if 'A'.toNat ≤ n ∧ n ≤ 'Z'.toNat then some (n - 'A'.toNat + 10)
    else none
  digit.filter (· < radix)

/-- `usize::from_str_radix`. -/
def fromStrRadix (s : List Char) (radix : ℕ) : Option ℕ :=
  let digits := if s.head? = some '+' then s.tail else s
  if digits = [] then none
  else digits.foldlM (fun n c => do
    let d ← toDigit radix c
    if n * radix + d < 2 ^ 64 then some (n * radix + d) else none) 0

/-- `str_to_usize`. -/
def strToUsize (s : String) : Option ℕ :=
  match s.toList with
  | '0' :: 'x' :: rest => fromStrRadix rest 16
  | '0' :: 'o' :: rest => fromStrRadix rest 8
  | '0' :: 'b' :: rest => fromStrRadix rest 2
  | s => fromStrRadix s 10

/-- What the commands use of the rest of the program. `system_off` does not return. -/
structure ConsoleHost (σ : Type) where
  launchCpu : σ → Exec (Bool × σ)
  switchActiveVm : ℕ → σ → Exec (Bool × σ)
  systemOff : σ → Exec Empty

/-- The state beside the console : `IS_CONSOLE_ACTIVE`, and as a history of `exec_command` the texts
that it has seen. -/
structure ConsoleEnv (σ : Type) where
  host : σ
  isConsoleActive : Bool
  executed : List (List (BitVec 8))

structure Console where
  buffer : Vector (BitVec 8) consoleBufferSize
  bufferPointer : ℕ
  ignoreLf : Bool

namespace Console

def new : Console where
  buffer := Vector.replicate consoleBufferSize 0
  bufferPointer := 0
  ignoreLf := false

section

variable {σ : Type} (host : ConsoleHost σ)

/-! ## The commands -/

def echo (_ : List String) (env : ConsoleEnv σ) : Exec (Bool × ConsoleEnv σ) :=
  .ok (true, env)

def powerOff (_ : List String) (env : ConsoleEnv σ) : Exec (Bool × ConsoleEnv σ) := do
  nomatch ← host.systemOff env.host

def bootVm (_ : List String) (env : ConsoleEnv σ) : Exec (Bool × ConsoleEnv σ) := do
  let (launched, s) ← host.launchCpu env.host
  pure (!launched, { env with host := s })

def switchVm (args : List String) (env : ConsoleEnv σ) : Exec (Bool × ConsoleEnv σ) :=
  match args with
  | [] => .ok (true, env)
  | arg :: _ =>
    match strToUsize arg with
    | none => .ok (true, env)
    | some vmId => do
      let (switched, s) ← host.switchActiveVm vmId env.host
      pure (!switched, { env with host := s })

def commandList : List (String × (List String → ConsoleEnv σ → Exec (Bool × ConsoleEnv σ))) :=
  [("boot", bootVm host), ("switch", switchVm host), ("echo", echo), ("poweroff", powerOff host)]

/-! ## Input -/

variable (self : Console)

/-- The bytes in use of the buffer. -/
def input : List (BitVec 8) :=
  self.buffer.toList.take self.bufferPointer

def resetBuffer : Console :=
  { self with bufferPointer := 0 }

/-- `exec_command`, from the text on. -/
def execInput (input : List (BitVec 8)) (env : ConsoleEnv σ) : Exec (Console × ConsoleEnv σ) :=
  match String.fromUTF8? ⟨(input.map UInt8.ofBitVec).toArray⟩ with
  | none => .ok (self.resetBuffer, env)
  | some input =>
    match splitWhitespace input with
    | [] => .ok (self.resetBuffer, env)
    | command :: args =>
      match (commandList host).find? fun e => e.1 = command with
      | none => .ok (self.resetBuffer, env)
      | some (_, f) => do
        let (keep, env) ← f args env
        if keep then pure (self.resetBuffer, env)
        else pure (self, { env with isConsoleActive := !env.isConsoleActive })

def execCommand (env : ConsoleEnv σ) : Exec (Console × ConsoleEnv σ) :=
  let env := { env with executed := env.executed ++ [self.input] }
  if self.bufferPointer = 0 then .ok (self.resetBuffer, env)
  else if consoleBufferSize < self.bufferPointer then .error .outOfBounds
  else self.execInput host self.input env

def write (data : BitVec 8) (env : ConsoleEnv σ) : Exec (Console × ConsoleEnv σ) :=
  if data = asciiCr ∨ (data = asciiLf ∧ self.ignoreLf = false) then
    execCommand host { self with ignoreLf := data = asciiCr } env
  else if isAsciiControl data ∨ self.bufferPointer = consoleBufferSize then .ok (self, env)
  else if h : self.bufferPointer < consoleBufferSize then
    .ok ({ self with
      buffer := self.buffer.set self.bufferPointer data h
      bufferPointer := self.bufferPointer + 1 }, env)
  else .error .outOfBounds

end

end Console

/-! ## Lines -/

/-- The lines that an input has so far, the text behind the last of them, and whether its last byte
is a CR. -/
structure InputLines where
  lines : List (List (BitVec 8))
  text : List (BitVec 8)
  afterCr : Bool

/-- One more byte. -/
def InputLines.next (l : InputLines) (data : BitVec 8) : InputLines :=
  if data = asciiCr ∨ (data = asciiLf ∧ l.afterCr = false) then
    ⟨l.lines ++ [l.text.take consoleBufferSize], [], data = asciiCr⟩
  else ⟨l.lines, if isAsciiControl data then l.text else l.text ++ [data], data = asciiCr⟩

def linesOf (bytes : List (BitVec 8)) : InputLines :=
  bytes.foldl InputLines.next ⟨[], [], false⟩

/-- Every LF behind some CR comes right behind a CR. -/
def LfFollowsCr (bytes : List (BitVec 8)) : Prop :=
  ∀ u v, bytes = u ++ asciiLf :: v → asciiCr ∈ u → u.getLast? = some asciiCr

/-- An input of the console, from `new` on, with commands that keep it active. -/
inductive ConsoleRun {σ : Type} (host : ConsoleHost σ) :
    List (BitVec 8) → Console → ConsoleEnv σ → Prop
  | new (s : σ) : ConsoleRun host [] .new ⟨s, true, []⟩
  | write {bytes : List (BitVec 8)} {c c' : Console} {env env' : ConsoleEnv σ} (data : BitVec 8)
      (hrun : ConsoleRun host bytes c env) (h : c.write host data env = .ok (c', env'))
      (hactive : env'.isConsoleActive = true) : ConsoleRun host (bytes ++ [data]) c' env'

section

variable {σ : Type} {host : ConsoleHost σ} {c c' : Console} {env env' : ConsoleEnv σ}
  {bytes : List (BitVec 8)} {data : BitVec 8}

theorem linesOf_concat (bytes : List (BitVec 8)) (data : BitVec 8) :
    linesOf (bytes ++ [data]) = (linesOf bytes).next data := by
  rw [linesOf, List.foldl_append]
  rfl

theorem linesOf_afterCr (bytes : List (BitVec 8)) :
    (linesOf bytes).afterCr = true ↔ bytes.getLast? = some asciiCr := by
  induction bytes using List.reverseRecOn with
  | nil => simp [linesOf]
  | append_singleton bytes data _ =>
    rw [linesOf_concat, InputLines.next, List.getLast?_concat, Option.some.injEq]
    split_ifs <;> simp

theorem lfFollowsCr_nil : LfFollowsCr [] := by
  intro u v h
  simp at h

theorem lfFollowsCr_concat : LfFollowsCr (bytes ++ [data]) ↔
    LfFollowsCr bytes ∧ (data = asciiLf → asciiCr ∈ bytes → bytes.getLast? = some asciiCr) := by
  constructor
  · intro h
    refine ⟨fun u v hb => h u (v ++ [data]) (by simp [hb]), ?_⟩
    rintro rfl
    exact h bytes [] rfl
  · rintro ⟨h, hlast⟩ u v hb
    induction v using List.reverseRecOn with
    | nil =>
      obtain ⟨rfl, hd⟩ := List.append_inj' hb rfl
      exact hlast (List.cons.inj hd).1
    | append_singleton v b _ =>
      rw [← List.cons_append, ← List.append_assoc] at hb
      exact h u v (List.append_inj' hb rfl).1

/-! ## What the console does -/

/-- The commands do not touch the history, nor whether the console is active. -/
theorem commandList_keeps {name : String}
    {f : List String → ConsoleEnv σ → Exec (Bool × ConsoleEnv σ)}
    (hf : (name, f) ∈ Console.commandList host) {args : List String} {keep : Bool}
    (h : f args env = .ok (keep, env')) :
    env'.executed = env.executed ∧ env'.isConsoleActive = env.isConsoleActive := by
  simp only [Console.commandList, List.mem_cons, Prod.mk.injEq, List.not_mem_nil, or_false] at hf
  obtain ⟨-, rfl⟩ | ⟨-, rfl⟩ | ⟨-, rfl⟩ | ⟨-, rfl⟩ := hf
  · obtain ⟨_, -, h⟩ := Exec.bind_eq_ok.mp h
    cases h
    exact ⟨rfl, rfl⟩
  · unfold Console.switchVm at h
    split at h
    · cases h
      exact ⟨rfl, rfl⟩
    · split at h
      · cases h
        exact ⟨rfl, rfl⟩
      · obtain ⟨_, -, h⟩ := Exec.bind_eq_ok.mp h
        cases h
        exact ⟨rfl, rfl⟩
  · cases h
    exact ⟨rfl, rfl⟩
  · obtain ⟨e, -, -⟩ := Exec.bind_eq_ok.mp h
    cases e

/-- `exec_command` has seen the text, and empties the buffer if the console stays active. -/
theorem Console.execCommand_spec (hactive : env.isConsoleActive = true)
    (h : c.execCommand host env = .ok (c', env')) (hactive' : env'.isConsoleActive = true) :
    env'.executed = env.executed ++ [c.input] ∧ c' = c.resetBuffer := by
  unfold Console.execCommand at h
  split_ifs at h
  · cases h
    exact ⟨rfl, rfl⟩
  · unfold Console.execInput at h
    split at h
    · cases h
      exact ⟨rfl, rfl⟩
    · split at h
      · cases h
        exact ⟨rfl, rfl⟩
      · split at h
        · cases h
          exact ⟨rfl, rfl⟩
        · rename_i hfind
          obtain ⟨⟨keep, env₁⟩, hcommand, h⟩ := Exec.bind_eq_ok.mp h
          obtain ⟨hexecuted, hkept⟩ := commandList_keeps (List.mem_of_find?_eq_some hfind) hcommand
          cases keep with
          | true =>
            cases h
            exact ⟨hexecuted, rfl⟩
          | false =>
            -- The command has switched the console off.
            cases h
            dsimp only at hactive' hkept
            rw [hkept, hactive] at hactive'
            cases hactive'

/-- A byte that is stored. -/
theorem Console.input_store (h : c.bufferPointer < consoleBufferSize) (data : BitVec 8) :
    Console.input { c with
      buffer := c.buffer.set c.bufferPointer data h
      bufferPointer := c.bufferPointer + 1 } = c.input ++ [data] := by
  have hlen : c.bufferPointer < (c.buffer.toList.set c.bufferPointer data).length := by
    rw [List.length_set, Vector.length_toList]
    exact h
  simp only [Console.input, Vector.toList_set]
  rw [List.take_succ_eq_append_getElem hlen, List.take_set_of_le le_rfl, List.getElem_set_self]

theorem Console.length_input (h : c.bufferPointer ≤ consoleBufferSize) :
    c.input.length = c.bufferPointer := by
  rw [Console.input, List.length_take, Vector.length_toList, min_eq_left h]

/-- What a byte that does not end a line does. -/
theorem Console.write_text (hdata : ¬(data = asciiCr ∨ (data = asciiLf ∧ c.ignoreLf = false)))
    (h : c.write host data env = .ok (c', env')) :
    env' = env ∧ c'.ignoreLf = c.ignoreLf ∧
      ((isAsciiControl data = true ∨ c.bufferPointer = consoleBufferSize) ∧ c' = c ∨
        isAsciiControl data = false ∧ c.bufferPointer < consoleBufferSize ∧
          c'.bufferPointer = c.bufferPointer + 1 ∧ c'.input = c.input ++ [data]) := by
  unfold Console.write at h
  rw [if_neg hdata] at h
  split_ifs at h with hfull hlt
  · cases h
    exact ⟨rfl, rfl, .inl ⟨hfull, rfl⟩⟩
  · cases h
    rw [not_or, Bool.not_eq_true] at hfull
    exact ⟨rfl, rfl, .inr ⟨hfull.1, hlt, rfl, Console.input_store hlt data⟩⟩

/-- What the console has made of an input : the lines and the text, or too few lines. -/
structure Console.HasRead (c : Console) (env : ConsoleEnv σ) (bytes : List (BitVec 8)) : Prop where
  active : env.isConsoleActive = true
  bounded : c.bufferPointer ≤ consoleBufferSize
  ignoreLf : c.ignoreLf = true ↔ asciiCr ∈ bytes
  lines : LfFollowsCr bytes → env.executed = (linesOf bytes).lines ∧
    c.input = (linesOf bytes).text.take consoleBufferSize
  fewer : ¬LfFollowsCr bytes → env.executed.length < (linesOf bytes).lines.length

namespace Console.HasRead

/-- A byte that ends a line for the console ends one. -/
theorem terminator (h : c.HasRead env bytes)
    (hdata : data = asciiCr ∨ (data = asciiLf ∧ c.ignoreLf = false)) :
    data = asciiCr ∨ (data = asciiLf ∧ (linesOf bytes).afterCr = false) := by
  refine hdata.imp_right fun ⟨hlf, hflag⟩ => ⟨hlf, ?_⟩
  by_contra hcr
  rw [Bool.not_eq_false, linesOf_afterCr] at hcr
  have := h.ignoreLf.mpr (List.mem_of_getLast? hcr)
  rw [hflag] at this
  cases this

/-- A line ends. -/
theorem line (h : c.HasRead env bytes)
    (hdata : data = asciiCr ∨ (data = asciiLf ∧ c.ignoreLf = false))
    (hactive : env'.isConsoleActive = true) (hexecuted : env'.executed = env.executed ++ [c.input])
    (hc : c' = { c with ignoreLf := data = asciiCr }.resetBuffer) : c'.HasRead env' (bytes ++ [data]) := by
  have hnext : linesOf (bytes ++ [data]) =
      ⟨(linesOf bytes).lines ++ [(linesOf bytes).text.take consoleBufferSize], [], data = asciiCr⟩ := by
    rw [linesOf_concat, InputLines.next, if_pos (h.terminator hdata)]
  have hfollows : LfFollowsCr (bytes ++ [data]) ↔ LfFollowsCr bytes := by
    rw [lfFollowsCr_concat, and_iff_left]
    rintro rfl hcr
    obtain hdata | ⟨-, hflag⟩ := hdata
    · cases hdata
    · rw [h.ignoreLf.mpr hcr] at hflag
      cases hflag
  subst hc
  refine ⟨hactive, Nat.zero_le _, ?_, fun hf => ?_, fun hf => ?_⟩
  · obtain rfl | ⟨rfl, hflag⟩ := hdata
    · simp [resetBuffer]
    · have hcr : asciiCr ∉ bytes := fun hcr => by
        rw [h.ignoreLf.mpr hcr] at hflag
        cases hflag
      simpa [resetBuffer, asciiCr, asciiLf] using hcr
  · obtain ⟨hlines, htext⟩ := h.lines (hfollows.mp hf)
    rw [hexecuted, hnext, hlines, htext]
    exact ⟨rfl, rfl⟩
  · have := h.fewer (mt hfollows.mpr hf)
    rw [hexecuted, hnext, List.length_append, List.length_append, List.length_singleton,
      List.length_singleton]
    omega

/-- Any other byte. An LF among them that does not come right behind a CR ends a line all the same. -/
theorem text (h : c.HasRead env bytes)
    (hdata : ¬(data = asciiCr ∨ (data = asciiLf ∧ c.ignoreLf = false)))
    (hflag : c'.ignoreLf = c.ignoreLf) (hbounded : c'.bufferPointer ≤ consoleBufferSize)
    (hinput : c'.input = (if isAsciiControl data then c.input else c.input ++ [data]).take
      consoleBufferSize) : c'.HasRead env (bytes ++ [data]) := by
  rw [not_or, not_and, Bool.not_eq_false] at hdata
  obtain ⟨hcr, hlf⟩ := hdata
  have hmem : asciiCr ∈ bytes ++ [data] ↔ asciiCr ∈ bytes := by
    rw [List.mem_append, List.mem_singleton, or_iff_left (Ne.symm hcr)]
  have hfollows : LfFollowsCr (bytes ++ [data]) ↔
      LfFollowsCr bytes ∧ (data = asciiLf → bytes.getLast? = some asciiCr) := by
    rw [lfFollowsCr_concat]
    exact and_congr_right fun _ => imp_congr_right fun hd => imp_iff_right (h.ignoreLf.mp (hlf hd))
  have hstay : (data = asciiLf → bytes.getLast? = some asciiCr) → linesOf (bytes ++ [data]) =
      ⟨(linesOf bytes).lines, if isAsciiControl data then (linesOf bytes).text
        else (linesOf bytes).text ++ [data], data = asciiCr⟩ := by
    intro hlast
    rw [linesOf_concat, InputLines.next, if_neg]
    rintro (hd | ⟨hd, hafter⟩)
    · exact hcr hd
    · rw [(linesOf_afterCr bytes).mpr (hlast hd)] at hafter
      cases hafter
  refine ⟨h.active, hbounded, ?_, fun hf => ?_, fun hf => ?_⟩
  · rw [hflag, hmem, h.ignoreLf]
  · obtain ⟨hf, hlast⟩ := hfollows.mp hf
    obtain ⟨hlines, htext⟩ := h.lines hf
    rw [hstay hlast, hinput, htext]
    refine ⟨hlines, ?_⟩
    split_ifs
    · rw [List.take_take, min_self]
    · rw [List.take_append, List.take_append, List.take_take, min_self, List.length_take]
      congr 2
      omega
  · by_cases hlast : data = asciiLf → bytes.getLast? = some asciiCr
    · rw [hstay hlast]
      exact h.fewer fun hc => hf (hfollows.mpr ⟨hc, hlast⟩)
    · obtain ⟨rfl, hno⟩ := Classical.not_imp.mp hlast
      -- The console ignores this LF.
      have hafter : (linesOf bytes).afterCr = false := by
        rw [← Bool.not_eq_true, linesOf_afterCr]
        exact hno
      rw [linesOf_concat, InputLines.next, if_pos (.inr ⟨rfl, hafter⟩), List.length_append,
        List.length_singleton]
      by_cases hb : LfFollowsCr bytes
      · rw [(h.lines hb).1]
        exact Nat.lt_succ_self _
      · exact (h.fewer hb).trans (Nat.lt_succ_self _)

/-- One byte. -/
theorem write (h : c.HasRead env bytes) (hw : c.write host data env = .ok (c', env'))
    (hactive : env'.isConsoleActive = true) : c'.HasRead env' (bytes ++ [data]) := by
  by_cases hdata : data = asciiCr ∨ (data = asciiLf ∧ c.ignoreLf = false)
  · unfold Console.write at hw
    rw [if_pos hdata] at hw
    obtain ⟨hexecuted, hc⟩ := execCommand_spec h.active hw hactive
    exact h.line hdata hactive hexecuted hc
  · obtain ⟨rfl, hflag, ⟨hfull, rfl⟩ | ⟨hcontrol, hlt, hpointer, hinput⟩⟩ := write_text hdata hw
    · refine h.text hdata rfl h.bounded ?_
      have hlen := length_input h.bounded
      split_ifs with hcontrol
      · exact (List.take_of_length_le (hlen ▸ h.bounded)).symm
      · rw [or_iff_right hcontrol] at hfull
        rw [List.take_left' (hlen.trans hfull)]
    · refine h.text hdata hflag (hpointer ▸ hlt) ?_
      rw [hinput, hcontrol, if_neg (by simp), List.take_of_length_le]
      rw [List.length_append, length_input h.bounded, List.length_singleton]
      exact hlt

end Console.HasRead

/-! ## Runs -/

theorem ConsoleRun.hasRead (h : ConsoleRun host bytes c env) : c.HasRead env bytes := by
  induction h with
  | new s =>
    refine ⟨rfl, Nat.zero_le _, by simp [Console.new], fun _ => ⟨rfl, rfl⟩, fun hf => ?_⟩
    exact absurd lfFollowsCr_nil hf
  | write data _ hw hactive ih => exact ih.write hw hactive

/-- The buffer index never exceeds 64. The console executes one command for each line of its input,
with the first 64 bytes of the line, exactly if every LF behind some CR comes right behind a CR. -/
theorem consoleRun_lines_iff (h : ConsoleRun host bytes c env) :
    c.bufferPointer ≤ consoleBufferSize ∧
      (env.executed = (linesOf bytes).lines ↔ LfFollowsCr bytes) := by
  have hread := h.hasRead
  refine ⟨hread.bounded, fun hlines => ?_, fun hf => (hread.lines hf).1⟩
  by_contra hf
  have := hread.fewer hf
  rw [hlines] at this
  exact lt_irrefl _ this

end

/-- A host with one CPU and one VM. -/
def quietHost : ConsoleHost Unit where
  launchCpu s := .ok (false, s)
  switchActiveVm _ s := .ok (false, s)
  systemOff _ := .error .unwrap

/-- `hi` with a CR LF is one line. -/
theorem consoleRun_lines_iff_crlf : ∃ c env,
    ConsoleRun quietHost [0x68#8, 0x69#8, asciiCr, asciiLf] c env ∧
      env.executed = [[0x68#8, 0x69#8]] := by
  have h₀ : ConsoleRun quietHost [] _ _ := .new ()
  have h := (((h₀.write 0x68#8 rfl rfl).write 0x69#8 rfl rfl).write asciiCr rfl rfl).write asciiLf rfl rfl
  refine ⟨_, _, h, ((consoleRun_lines_iff h).2.mpr ?_).trans (by decide)⟩
  simp only [lfFollowsCr_concat, lfFollowsCr_nil]
  decide

/-- An empty line that ends with a CR, and one with the text `a` that ends with an LF : the console ignores
the end of the second one. -/
theorem console_ignores_lf : ∃ c env, ConsoleRun quietHost [asciiCr, 0x61#8, asciiLf] c env ∧
    (linesOf [asciiCr, 0x61#8, asciiLf]).lines = [[], [0x61#8]] ∧ env.executed = [[]] ∧
      env.executed ≠ (linesOf [asciiCr, 0x61#8, asciiLf]).lines := by
  have h₀ : ConsoleRun quietHost [] _ _ := .new ()
  have h := ((h₀.write asciiCr rfl rfl).write 0x61#8 rfl rfl).write asciiLf rfl rfl
  exact ⟨_, _, h, by decide, rfl, by decide⟩

end MiniVisor

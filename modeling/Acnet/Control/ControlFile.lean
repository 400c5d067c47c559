import Acnet.Framework.CString

/-!
The control file: what `acnet -s` writes and what the daemon's `sigal_handle` reads.
-/

namespace Acnet.Control

inductive Command where
  | stop
  | reload (name : Option CString)
  | remove (name : CString)
  deriving DecidableEq

/-- The comparisons of `parse_command_line` with the argument of `-s` and the next word of the
command line; no command is an error message. -/
def parseCommandLine (command : CString) (arg : Option CString) : Option Command :=
  if command.bytes=ascii "stop" then some .stop
  else if command.bytes=ascii "reload" then some (.reload arg)
  else if command.bytes=ascii "remove" then arg.map .remove
  else none

/-- The bytes that `fprintf` writes. -/
def encode : Command → List UInt8
  | .stop => ascii "stop"
  | .reload (some name) => ascii "reload "++name.bytes
  | .reload none => ascii "reload all"
  | .remove name => ascii "remove "++name.bytes

/-- The calls of `manager` in `sigal_handle`. -/
inductive Dispatch where
  | reloadModule (name : CString)
  | removeModule (name : CString)
  | shutdown
  deriving DecidableEq

/-- `sigal_handle` from its search for a space on. -/
def dispatch (cmd : CString) : Option Dispatch :=
  match cmd.split 32 with
  | some (word,name) =>
      if word.bytes=ascii "reload" then some (.reloadModule name)
      else if word.bytes=ascii "remove" then some (.removeModule name)
      else none
  | none => if cmd.bytes=ascii "stop" then some .shutdown else none

/-- What `sigal_handle` does with the bytes of the control file. -/
def decode (file : List UInt8) : Option Dispatch :=
  (fgets 64 file).bind fun cmd => dispatch (.ofBuffer cmd)

/-- The name that stands for every module. -/
def all : CString := ⟨ascii "all",by decide⟩

/-- The call that a command asks for. -/
def Command.call : Command → Dispatch
  | .stop => .shutdown
  | .reload name => .reloadModule (name.getD all)
  | .remove name => .removeModule name

def Command.name : Command → Option CString
  | .stop => none
  | .reload name => name
  | .remove name => some name

/-- A name that comes through whole: it fits into what the command leaves of the buffer, and a
newline can only be its last byte. -/
def Fits (name : CString) : Prop := name.bytes.length ≤ 56 ∧ 10∉name.bytes.dropLast

instance (name : CString) : Decidable (Fits name) := inferInstanceAs (Decidable (_ ∧ _))

/-- The part of a name that the daemon reads. -/
def truncated (name : CString) : CString :=
  ⟨line 56 name.bytes,fun h => name.noNul (mem_of_mem_line h)⟩

theorem truncated_eq_iff (name : CString) : truncated name=name ↔ Fits name := by
  rw [CString.ext_iff]
  exact line_eq_self_iff 56 name.bytes

/-- A command with a name is split behind its word, and the name is cut to the buffer. -/
theorem decode_word (word : List UInt8) (hlen : word.length=6)
    (hword : 0∉word ∧ 10∉word ∧ 32∉word) (name : CString) :
    decode (word++32::name.bytes)=
      if word=ascii "reload" then some (.reloadModule (truncated name))
      else if word=ascii "remove" then some (.removeModule (truncated name))
      else none := by
  obtain ⟨h0,h10,h32⟩ := hword
  have hread : line 63 (word++32::name.bytes)=word++32::line 56 name.bytes := by
    have h := line_append h10 57 (32::name.bytes)
    rwa [hlen] at h
  have hname : 0∉line 56 name.bytes := (truncated name).noNul
  have hclean : 0∉word++32::line 56 name.bytes := by
    simpa [h0] using hname
  have hsplit : (⟨word++32::line 56 name.bytes,hclean⟩ : CString).split 32=
      some (⟨word,h0⟩,truncated name) :=
    CString.split_append h32 h0 hname hclean
  simp [decode,fgets,hread,CString.ofBuffer_eq hclean,dispatch,hsplit]

/-- Every command reaches the daemon as itself, or with its name cut off. -/
theorem decode_encode (c : Command) :
    decode (encode c)=some (match c with
      | .stop => .shutdown
      | .reload none => .reloadModule all
      | .reload (some name) => .reloadModule (truncated name)
      | .remove name => .removeModule (truncated name)) := by
  cases c with
  | stop => decide
  | reload name =>
    cases name with
    | none => decide
    | some name =>
      have h := decode_word (ascii "reload") (by decide) (by decide) name
      rwa [if_pos rfl] at h
  | remove name =>
    have h := decode_word (ascii "remove") (by decide) (by decide) name
    rwa [if_neg (by decide),if_pos rfl] at h

/-- A command is decoded into the call it asks for exactly if its name, if it has one, is no
longer than 56 bytes and has no newline before its last byte. -/
theorem control_roundtrip_iff (c : Command) :
    decode (encode c)=some c.call ↔ ∀ name,c.name=some name → Fits name := by
  rw [decode_encode]
  cases c with
  | stop => simp [Command.call,Command.name]
  | reload name =>
    cases name with
    | none => simp [Command.call,Command.name]
    | some name => simp [Command.call,Command.name,truncated_eq_iff]
  | remove name => simp [Command.call,Command.name,truncated_eq_iff]

/-- A name with a space in it is one name for both sides. -/
theorem control_roundtrip_spaced :
    decode (encode (.reload (some ⟨ascii "echo all",by decide⟩)))=
      some (.reloadModule ⟨ascii "echo all",by decide⟩) :=
  (control_roundtrip_iff (.reload (some ⟨ascii "echo all",by decide⟩))).mpr (by
    intro name hname
    cases hname
    decide)

/-- A name of 57 bytes: the daemon removes the module of its first 56. -/
theorem control_roundtrip_long :
    decode (encode (.remove ⟨List.replicate 57 97,by decide⟩))=
      some (.removeModule ⟨List.replicate 56 97,by decide⟩) := by
  rw [decode_encode]
  decide

end Acnet.Control

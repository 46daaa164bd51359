import Goldfish.Lib.Code

/-!
# What a machine sends

A device takes the words that `str` puts at the address of its port. A run is
watched for them; apart from that the machine goes its way.
-/

namespace Processor

open Arm (Word)
open StateTransition

/-- The words that an instruction puts at the port. -/
def Instr.sends (port : Word) (m : Machine) : Instr → List Word
  | str rd rn => if m.core.get rn = port then [m.core.get rd] else []
  | cond c i => if c.holds m.core.cpsr then i.sends port m else []
  | _ => []

/-- A machine with the words it has sent. -/
structure Sender where
  machine : Machine
  sent : List Word

def send (code : Code) (port : Word) (s : Sender) : Option Sender :=
  (code s.machine.core.pc).map fun i =>
    ⟨i.exec s.machine, s.sent ++ i.sends port s.machine⟩

def sentBy (port : Word) : List Instr → Machine → List Word
  | [], _ => []
  | i :: is, m => i.sends port m ++ sentBy port is (i.exec m)

@[simp] theorem sentBy_nil (port : Word) (m : Machine) : sentBy port [] m = [] := rfl

@[simp] theorem sentBy_cons (port : Word) (i : Instr) (is : List Instr) (m : Machine) :
    sentBy port (i :: is) m = i.sends port m ++ sentBy port is (i.exec m) := rfl

section Send

variable {code : Code} {port : Word}

theorem Executes.sends {is : List Instr} {m : Machine} (h : Executes code is m) (port : Word)
    (l : List Word) :
    Reaches (send code port) ⟨m, l⟩ ⟨runCode is m, l ++ sentBy port is m⟩ := by
  induction is generalizing m l with
  | nil =>
      rw [sentBy_nil, List.append_nil]
      exact Relation.ReflTransGen.refl
  | cons i is ih =>
      have hstep : send code port ⟨m, l⟩ = some ⟨i.exec m, l ++ i.sends port m⟩ := by
        rw [send, h.1]
        rfl
      have hrest := ih h.2 (l ++ i.sends port m)
      rw [List.append_assoc] at hrest
      exact Relation.ReflTransGen.head hstep hrest

end Send

end Processor

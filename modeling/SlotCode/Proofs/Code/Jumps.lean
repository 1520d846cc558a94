import SlotCode.Code.Command
import SlotCode.Proofs.Source.Jumps

/-!
# Loops and ways out of them in code

Code names its loops by numbers, so its jumps are found by number: a `leave` means the innermost loop
around it with the number it carries.
-/

namespace SlotCode

open Jump List Command

mutual

/-- The jumps of a command inside loops with these numbers, innermost first.  There are none if a
`leave` is outside the loop whose number it carries. -/
def Command.jumps (ids : List LoopId) : Command → Option (List Jump)
  | .assign _ _ _ | .call _ _ _ _ | .native _ _ _ _ => some []
  | .branch _ _ yes no => join (Command.jumpsAll ids yes) (Command.jumpsAll ids no)
  | .loop _ id body => (Command.jumpsAll (id :: ids) body).map fun js => [.loop js]
  | .leave _ id => (ids.findIdx? (· = id)).map fun depth => [.leave depth]

def Command.jumpsAll (ids : List LoopId) : List Command → Option (List Jump)
  | [] => some []
  | command :: rest => join (command.jumps ids) (Command.jumpsAll ids rest)

end

mutual

/-- The numbers of the loops of a command, outer loops before inner ones and the first branch before the
second. -/
def Command.loopIds : Command → List LoopId
  | .assign _ _ _ | .call _ _ _ _ | .native _ _ _ _ | .leave _ _ => []
  | .branch _ _ yes no => Command.loopIdsAll yes ++ Command.loopIdsAll no
  | .loop _ id body => id :: Command.loopIdsAll body

def Command.loopIdsAll : List Command → List LoopId
  | [] => []
  | command :: rest => command.loopIds ++ Command.loopIdsAll rest

end

mutual

/-- Every `leave` is inside the body of the loop whose number it carries, or that number is among
`ids`. -/
def Command.bracketed (ids : List LoopId) : Command → Bool
  | .assign _ _ _ | .call _ _ _ _ | .native _ _ _ _ => true
  | .branch _ _ yes no => Command.allBracketed ids yes && Command.allBracketed ids no
  | .loop _ id body => Command.allBracketed (id :: ids) body
  | .leave _ id => ids.contains id

def Command.allBracketed (ids : List LoopId) : List Command → Bool
  | [] => true
  | command :: rest => command.bracketed ids && Command.allBracketed ids rest

end

theorem Jump.isSome_join (a b : Option (List Jump)) : (join a b).isSome = (a.isSome && b.isSome) := by
  cases a <;> cases b <;> rfl

mutual

/-- Code has jumps exactly if it is bracketed. -/
theorem Command.isSome_jumps (ids : List LoopId) (c : Command) :
    (c.jumps ids).isSome = c.bracketed ids := by
  cases c with
  | assign | call | native => rfl
  | branch span test yes no =>
    rw [jumps, bracketed, isSome_join, isSome_jumpsAll ids yes, isSome_jumpsAll ids no]
  | loop span id body =>
    rw [jumps, bracketed, Option.isSome_map, isSome_jumpsAll (id :: ids) body]
  | leave span id =>
    rw [jumps, bracketed, Option.isSome_map, findIdx?_isSome, Bool.eq_iff_iff]
    simp

theorem Command.isSome_jumpsAll (ids : List LoopId) (code : List Command) :
    (jumpsAll ids code).isSome = allBracketed ids code := by
  cases code with
  | nil => rfl
  | cons c rest =>
    rw [jumpsAll, allBracketed, isSome_join, isSome_jumps ids c, isSome_jumpsAll ids rest]

end

theorem Command.jumpsAll_append (ids : List LoopId) (a b : Code) :
    jumpsAll ids (a ++ b) = join (jumpsAll ids a) (jumpsAll ids b) := by
  induction a with
  | nil => rw [nil_append, jumpsAll, join_nil_left]
  | cons c a ih => rw [cons_append, jumpsAll, jumpsAll, ih, join_assoc]

theorem Command.loopIdsAll_append (a b : Code) :
    loopIdsAll (a ++ b) = loopIdsAll a ++ loopIdsAll b := by
  induction a with
  | nil => rfl
  | cons c a ih => rw [cons_append, loopIdsAll, loopIdsAll, ih, append_assoc]

/-- The command only moves data. -/
def Command.isPlain : Command → Bool
  | .assign _ _ _ | .call _ _ _ _ | .native _ _ _ _ => true
  | _ => false

theorem Command.jumpsAll_of_plain (ids : List LoopId) {code : Code} (h : ∀ c ∈ code, c.isPlain = true) :
    jumpsAll ids code = some [] ∧ loopIdsAll code = [] := by
  induction code with
  | nil => exact ⟨rfl, rfl⟩
  | cons c code ih =>
    obtain ⟨hjumps, hids⟩ := ih fun c hc => h c (mem_cons_of_mem _ hc)
    rw [jumpsAll, loopIdsAll, hjumps, hids, join_nil_right, append_nil]
    have hc := h c mem_cons_self
    cases c with
    | assign | call | native => exact ⟨rfl, rfl⟩
    | branch | loop | leave => cases hc

end SlotCode

import Mathlib.Logic.Function.Basic
import QueueFairness.Lib.Interleaving

/-!
# Hazard pointers

`HazardPointers.hpp`: a table of published pointers, and for every thread the objects it has retired
and not yet deleted. `retire` goes over the thread's list, and for each object over the table, one
slot a step; an object found in no slot is deleted.
-/

namespace QueueFairness

open Interleaving (Tid)

/-- The table `hp`, of which every user has `maxHPs = 2` slots a thread, and `retiredList`. -/
structure HazardPointers where
  hp : Tid → Nat → Option Nat
  retiredList : Tid → List Nat

namespace HazardPointers

def kHpTail : Nat := 0
def kHpHead : Nat := 1
def maxHPs : Nat := 2

def init : HazardPointers :=
  { hp := fun _ _ => none, retiredList := fun _ => [] }

def setSlot (H : HazardPointers) (t : Tid) (index : Nat) (p : Option Nat) : HazardPointers :=
  { H with hp := Function.update H.hp t (Function.update (H.hp t) index p) }

def setRetired (H : HazardPointers) (t : Tid) (ptrs : List Nat) : HazardPointers :=
  { H with retiredList := Function.update H.retiredList t ptrs }

/-- Where a thread stands in the loops of `retire`: about to load a slot to compare it with the
object at `iret`, or about to delete that object. -/
inductive Scan where
  | load (iret obj row slot : Nat)
  | erase (iret obj : Nat)
  deriving DecidableEq

/-- The loop head at `iret`; `none` when the loop is over. -/
def scanFrom (maxThreads : Nat) (ptrs : List Nat) (iret : Nat) : Option Scan :=
  ptrs[iret]?.map fun obj =>
    if 0 < maxThreads then .load iret obj 0 (maxHPs - 1) else .erase iret obj

/-- What follows the comparison with a slot. -/
def afterLoad (maxThreads : Nat) (ptrs : List Nat) (iret obj row slot : Nat) (found : Bool) :
    Option Scan :=
  if found then
    scanFrom maxThreads ptrs (iret + 1)
  else if 0 < slot then
    some (.load iret obj row (slot - 1))
  else if row + 1 < maxThreads then
    some (.load iret obj (row + 1) (maxHPs - 1))
  else
    some (.erase iret obj)

/-- A step of `retire` by thread `t` after it has appended the object: the table, where the scan
goes on if it does, and the object deleted if one is. -/
def scanStep (maxThreads : Nat) (t : Tid) (H : HazardPointers) :
    Scan → HazardPointers × Option Scan × Option Nat
  | .load iret obj row slot =>
      (H, afterLoad maxThreads (H.retiredList t) iret obj row slot (H.hp row slot == some obj),
        none)
  | .erase iret obj =>
      let ptrs := (H.retiredList t).eraseIdx iret
      (H.setRetired t ptrs, scanFrom maxThreads ptrs iret, some obj)

/-! ### The arrays -/

def hpMaxThreads : Nat := 128
def hpMaxHPs : Nat := 11
def clpad : Nat := 128 / 8

/-- What a thread gets at in the arrays: `hp[row][slot]` or `retiredList[row]`. -/
inductive Access where
  | hp (row slot : Nat)
  | retiredList (row : Nat)
  deriving DecidableEq

/-- The rows and the slots that the arrays have. -/
def Access.InBounds : Access → Prop
  | .hp row slot => row < hpMaxThreads * clpad ∧ slot < hpMaxHPs
  | .retiredList row => row < hpMaxThreads * clpad

instance : DecidablePred Access.InBounds
  | .hp _ _ => inferInstanceAs (Decidable (_ ∧ _))
  | .retiredList _ => inferInstanceAs (Decidable (_ < _))

/-- The slot `index` of thread `t`. -/
def slotOf (t : Tid) (index : Nat) : Access := .hp (t * clpad) index

/-- The list of thread `t`. -/
def listOf (t : Tid) : Access := .retiredList (t * clpad)

/-- What `~HazardPointers` deletes, in order. -/
def destroyed (H : HazardPointers) : List Nat := (List.range hpMaxThreads).flatMap H.retiredList

/-- What a step of `retire` gets at. -/
def Scan.tableAccesses (t : Tid) : Scan → List Access
  | .load _ _ row slot => [listOf t, slotOf row slot]
  | .erase _ _ => [listOf t]

end HazardPointers

end QueueFairness

import Mathlib.Data.Int.Notation
import Mathlib.Data.List.Nodup
import Netp.Lib.Chain
import Netp.Lib.Refine

/-! # The linked list (`genf/list.h`)

`DList` without `DOUBLELIST_VALUE`: the links are in the elements, and the elements belong to whoever uses
the list. So an operation on one list writes to elements that other lists may reach. The state is the
links and the contents of all elements, and any number of lists.

A list is a chain over `next` from its head and a chain over `prev` from its tail. What is inserted
before an element is inserted after it in the mirror, where both links and both ends change places.
`lists_refine` compares all lists with sequences.

A function is `none` where the source follows a null pointer. `new` is an input, and `delete` an output.
-/

namespace Netp.Genf.DLists
open Netp.Lib
set_option autoImplicit false

/-- The links and the contents of the elements. -/
structure Heap (α ν : Type) where
  next : α → Option α
  prev : α → Option α
  val : α → ν

/-- `class DList`. -/
@[ext] structure DList (α : Type) where
  head : Option α
  tail : Option α
  listLen : ℤ

section Code
variable {α ν : Type} [DecidableEq α]

def Heap.setNext (h : Heap α ν) (p : α) (v : Option α) : Heap α ν :=
  { h with next := Function.update h.next p v }

def Heap.setPrev (h : Heap α ν) (p : α) (v : Option α) : Heap α ν :=
  { h with prev := Function.update h.prev p v }

def Heap.setVal (h : Heap α ν) (p : α) (v : ν) : Heap α ν :=
  { h with val := Function.update h.val p v }

/-- The list after its constructor or `abandon`. -/
def abandoned : DList α := ⟨none, none, 0⟩

def addAfter (h : Heap α ν) (d : DList α) (prevEl : Option α) (newEl : α) : Heap α ν × DList α :=
  let h := h.setPrev newEl prevEl
  let r := match prevEl with
    | none => (h.setNext newEl d.head, { d with head := some newEl })
    | some p => ((h.setNext newEl (h.next p)).setNext p (some newEl), d)
  let r := match r.1.next newEl with
    | none => (r.1, { r.2 with tail := some newEl })
    | some n => (r.1.setPrev n (some newEl), r.2)
  (r.1, { r.2 with listLen := r.2.listLen + 1 })

def addBefore (h : Heap α ν) (d : DList α) (nextEl : Option α) (newEl : α) : Heap α ν × DList α :=
  let h := h.setNext newEl nextEl
  let r := match nextEl with
    | none => (h.setPrev newEl d.tail, { d with tail := some newEl })
    | some n => ((h.setPrev newEl (h.prev n)).setPrev n (some newEl), d)
  let r := match r.1.prev newEl with
    | none => (r.1, { r.2 with head := some newEl })
    | some p => (r.1.setNext p (some newEl), r.2)
  (r.1, { r.2 with listLen := r.2.listLen + 1 })

/-- `addAfter` of a whole list, which the caller empties. -/
def addAfterList (h : Heap α ν) (d : DList α) (prevEl : Option α) (dl : DList α) :
    Option (Heap α ν × DList α) :=
  if dl.listLen = 0 then some (h, d)
  else dl.head.bind fun first => dl.tail.map fun last =>
    let h := h.setPrev first prevEl
    let r := match prevEl with
      | none => (h.setNext last d.head, { d with head := some first })
      | some p => ((h.setNext last (h.next p)).setNext p (some first), d)
    let r := match r.1.next last with
      | none => (r.1, { r.2 with tail := some last })
      | some n => (r.1.setPrev n (some last), r.2)
    (r.1, { r.2 with listLen := r.2.listLen + dl.listLen })

def addBeforeList (h : Heap α ν) (d : DList α) (nextEl : Option α) (dl : DList α) :
    Option (Heap α ν × DList α) :=
  if dl.listLen = 0 then some (h, d)
  else dl.head.bind fun first => dl.tail.map fun last =>
    let h := h.setNext last nextEl
    let r := match nextEl with
      | none => (h.setPrev first d.tail, { d with tail := some last })
      | some n => ((h.setPrev first (h.prev n)).setPrev n (some last), d)
    let r := match r.1.prev first with
      | none => (r.1, { r.2 with head := some first })
      | some p => (r.1.setNext p (some first), r.2)
    (r.1, { r.2 with listLen := r.2.listLen + dl.listLen })

def detach (h : Heap α ν) (d : DList α) (el : α) : Heap α ν × DList α :=
  let r := match h.prev el with
    | none => (h, { d with head := h.next el })
    | some p => (h.setNext p (h.next el), d)
  let r := match r.1.next el with
    | none => (r.1, { r.2 with tail := r.1.prev el })
    | some n => (r.1.setPrev n (r.1.prev el), r.2)
  (r.1, { r.2 with listLen := r.2.listLen - 1 })

/-- The `while` of `operator=` and of the copy constructor, from `el` on. `copies` is what `new` returns;
`none` when it is still running after all of them. -/
def copyLoop : List α → Heap α ν → DList α → Option α → Option (Heap α ν × DList α)
  | _, h, d, none => some (h, d)
  | [], _, _, some _ => none
  | c :: cs, h, d, some el =>
    let r := addAfter (h.setVal c (h.val el)) d d.tail c
    copyLoop cs r.1 r.2 (r.1.next el)

/-- The elements that an iterator passes from `ptr` on; `none` when it is not at the end after `fuel`. -/
def walk (link : α → Option α) : ℕ → Option α → Option (List α)
  | _, none => some []
  | 0, some _ => none
  | fuel + 1, some p => (walk link fuel (link p)).map (p :: ·)

end Code

/-! ## Any number of lists -/

structure Lists (ι α ν : Type) where
  heap : Heap α ν
  list : ι → DList α

inductive Op (ι α : Type)
  | addAfter (l : ι) (prevEl : Option α) (newEl : α)
  | addBefore (l : ι) (nextEl : Option α) (newEl : α)
  | append (l : ι) (newEl : α)
  | prepend (l : ι) (newEl : α)
  | addAfterList (l : ι) (prevEl : Option α) (dl : ι)
  | addBeforeList (l : ι) (nextEl : Option α) (dl : ι)
  | appendList (l dl : ι)
  | prependList (l dl : ι)
  | detach (l : ι) (el : α)
  | detachFirst (l : ι)
  | detachLast (l : ι)
  | transfer (l other : ι)
  | abandon (l : ι)
  | empty (l : ι)
  /-- `operator=`, or the copy constructor where `l` is a new list. -/
  | assign (l other : ι) (copies : List α)
  /-- `for ( Iter i = l; i.lte(); i++ )`, and from the last element with `i--` and `i.gtb()`. -/
  | iterate (l : ι)
  | iterateBack (l : ι)
  | length (l : ι)

inductive Out (α : Type)
  | done
  | el (p : α)
  | els (ps : List α)
  | len (n : ℤ)

section Machine
variable {ι α ν : Type} [DecidableEq ι] [DecidableEq α] (s : Lists ι α ν)

def Lists.set (l : ι) (r : Heap α ν × DList α) : Lists ι α ν := ⟨r.1, Function.update s.list l r.2⟩

/-- The end of a list that was moved into another one. -/
def Lists.abandon (l : ι) : Lists ι α ν := s.set l (s.heap, abandoned)

def Lists.step : Op ι α → Option (Lists ι α ν × Out α)
  | .addAfter l prevEl newEl => some (s.set l (DLists.addAfter s.heap (s.list l) prevEl newEl), .done)
  | .addBefore l nextEl newEl => some (s.set l (DLists.addBefore s.heap (s.list l) nextEl newEl), .done)
  | .append l newEl => some (s.set l (DLists.addAfter s.heap (s.list l) (s.list l).tail newEl), .done)
  | .prepend l newEl => some (s.set l (DLists.addBefore s.heap (s.list l) (s.list l).head newEl), .done)
  | .addAfterList l prevEl dl => (DLists.addAfterList s.heap (s.list l) prevEl (s.list dl)).map fun r =>
      ((s.set l r).abandon dl, .done)
  | .addBeforeList l nextEl dl => (DLists.addBeforeList s.heap (s.list l) nextEl (s.list dl)).map fun r =>
      ((s.set l r).abandon dl, .done)
  | .appendList l dl => (DLists.addAfterList s.heap (s.list l) (s.list l).tail (s.list dl)).map fun r =>
      ((s.set l r).abandon dl, .done)
  | .prependList l dl => (DLists.addBeforeList s.heap (s.list l) (s.list l).head (s.list dl)).map fun r =>
      ((s.set l r).abandon dl, .done)
  | .detach l el => some (s.set l (DLists.detach s.heap (s.list l) el), .el el)
  | .detachFirst l => (s.list l).head.map fun el => (s.set l (DLists.detach s.heap (s.list l) el), .el el)
  | .detachLast l => (s.list l).tail.map fun el => (s.set l (DLists.detach s.heap (s.list l) el), .el el)
  | .transfer l other => some ((s.set l (s.heap, s.list other)).abandon other, .done)
  | .abandon l => some (s.abandon l, .done)
  | .empty l => (walk s.heap.next (s.list l).listLen.toNat (s.list l).head).map fun ps =>
      (s.abandon l, .els ps)
  | .assign l other copies => (copyLoop copies s.heap (s.list l) (s.list other).head).map fun r =>
      (s.set l r, .done)
  | .iterate l => (walk s.heap.next (s.list l).listLen.toNat (s.list l).head).map fun ps => (s, .els ps)
  | .iterateBack l => (walk s.heap.prev (s.list l).listLen.toNat (s.list l).tail).map fun ps => (s, .els ps)
  | .length l => some (s, .len (s.list l).listLen)

/-- Lists that have just been constructed, over any elements. -/
def lists (h : Heap α ν) : Machine (Lists ι α ν) (Op ι α) (Out α) := ⟨⟨h, fun _ => abandoned⟩, Lists.step⟩

end Machine

end Netp.Genf.DLists

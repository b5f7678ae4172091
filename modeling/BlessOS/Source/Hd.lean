import Mathlib.Logic.Function.Basic
import BlessOS.Source.Pata

/-!
# Disk requests, `drivers/hd.c`

Requests are structures at 32-bit addresses and `0` is `NULL`. A pointer to a queue
is the queue it points to, or `none`. What `kmalloc` returned for a new request, and
the bytes that are read from the status port, are arguments. A `halt()` leaves no
state and is `none`.
-/

set_option autoImplicit false

namespace BlessOS.Source.Hd
open BlessOS.Source.Pata

inductive RequestType where
  | read | write
  deriving DecidableEq, Repr

/-- `struct hd_request`. -/
structure Request where
  hd : U32
  nsector : U32
  sector : U32
  head : U32
  cyl : U32
  type : RequestType
  errors : U32
  bh : U32
  next : U32

structure RequestQueue where
  size : U32
  head : U32
  tail : U32

/-- The three queues of the driver. -/
inductive QueueName where
  | executing | pending | completed
  deriving DecidableEq, Repr

structure HdState where
  requests : U32 → Request
  queues : QueueName → RequestQueue
  /-- The calls of `hd_rw`, and what was written to the ports. -/
  issued : List Command
  ports : List PortWrite

def HdState.setNext (s : HdState) (req next : U32) : HdState :=
  { s with requests := Function.update s.requests req { s.requests req with next := next } }

def HdState.setQueue (s : HdState) (name : QueueName) (queue : RequestQueue) : HdState :=
  { s with queues := Function.update s.queues name queue }

/-- `{ 0, NULL, NULL }` -/
def emptyQueue : RequestQueue := { size := 0, head := 0, tail := 0 }

def isQueueEmpty (queue : RequestQueue) : Bool := decide (queue.head = 0 ∧ queue.tail = 0)

/-- The request that `create_request` fills in at the address `req`. -/
def createRequest (req hd nsector sector head cylinder : U32) (type : RequestType) (bh : U32)
    (s : HdState) : Option (U32 × HdState) :=
  if req = 0 then none
  else
    let request : Request :=
      { hd := hd, nsector := nsector, sector := sector, head := head, cyl := cylinder,
        type := type, errors := 0, bh := bh, next := 0 }
    some (req, { s with requests := Function.update s.requests req request })

def addRequestToQueue (queue : Option QueueName) (req : U32) (s : HdState) : Int × HdState :=
  match queue with
  | none => (-1, s)
  | some name =>
    let s := s.setNext req 0
    let q := s.queues name
    if isQueueEmpty q then (0, s.setQueue name { size := q.size + 1, head := req, tail := req })
    else
      let s := s.setNext q.tail req
      (0, s.setQueue name { q with size := q.size + 1, tail := req })

/-- Returns the request, or `NULL`. The size of the queue stays. -/
def removeRequestFromQueue (queue : Option QueueName) (s : HdState) : U32 × HdState :=
  match queue with
  | none => (0, s)
  | some name =>
    let q := s.queues name
    if q.head = 0 ∧ q.tail = 0 then (0, s)
    else
      let p := (s.requests q.head).next
      (q.head, s.setQueue name { q with head := p, tail := if p = 0 then p else q.tail })

def switchQueues (source target : Option QueueName) (s : HdState) : Int × HdState :=
  match source, target with
  | some source, some target =>
    if isQueueEmpty (s.queues source) then (-1, s)
    else
      let removed := removeRequestFromQueue (some source) s
      if removed.1 = 0 then (-1, removed.2)
      else (0, (addRequestToQueue (some target) removed.1 removed.2).2)
  | _, _ => (-1, s)

def command (req : Request) : Command :=
  { drive := req.hd, nsect := req.nsector, sectNo := req.sector, head := req.head, cyl := req.cyl,
    cmd := if req.type = .read then ataCmdRead else ataCmdWrite }

/-- `status` are the bytes that `hd_rw` reads, `drq` the one behind them. -/
def submitRequest (status : Nat → U8) (drq : U8) (s : HdState) : Option HdState :=
  let switched := switchQueues (some .pending) (some .executing) s
  if switched.1 ≠ 0 then none
  else
    let s := switched.2
    let req := s.requests (s.queues .executing).head
    let data := if req.type = .write ∧ isHdDrq drq then [.block req.bh] else []
    some { s with
      issued := s.issued ++ [command req]
      ports := s.ports ++ hdRw status (command req) ++ data }

/-- The handler only prints the request at the head of the executing queue. -/
def hdInterrupt (s : HdState) : HdState := s

end BlessOS.Source.Hd

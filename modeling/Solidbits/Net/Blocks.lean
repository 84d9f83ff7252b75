import Solidbits.Lib.Heap
import Solidbits.Net.Defs

namespace Solidbits

open Heap

-- Where a struct work_req, its line and its resp_buf are; what is in them is in
-- the connection's lists.
structure WorkBlocks where
  req : Ptr
  line : Ptr
  resp : Ptr

def WorkBlocks.blocks (w : WorkBlocks) : List Ptr := [w.req, w.line, w.resp]

-- Where a struct conn_t and its rbuf are, and its requests in the order of the
-- lists they stand in.
structure ConnBlocks where
  conn : Conn
  self : Ptr
  rbuf : Ptr
  works : List WorkBlocks := []
  writes : List WorkBlocks := []

def ConnBlocks.blocks (c : ConnBlocks) : List Ptr :=
  c.self :: c.rbuf :: (c.works ++ c.writes).flatMap WorkBlocks.blocks

section Callbacks

def ConnBlocks.maybeClose (c : ConnBlocks) : Mem ConnBlocks := do
  access c.self
  return { c with conn := Solidbits.maybeClose c.conn }

-- c->closing = 1; maybe_close(c).
def ConnBlocks.startClosing (c : ConnBlocks) : Mem ConnBlocks := do
  access c.self
  ConnBlocks.maybeClose { c with conn := { c.conn with closing := true } }

-- on_close, after which libuv forgets the handle.
def ConnBlocks.onClose (c : ConnBlocks) : Mem Unit := do
  access c.self
  free c.rbuf
  free c.self

def WorkBlocks.free (w : WorkBlocks) : Mem Unit := do
  access w.req
  Heap.free w.line
  access w.req
  Heap.free w.resp
  Heap.free w.req

-- The handle that is not accepted, or not read from, is closed at once.
def onConnection (tcpInitFails acceptFails readStartFails : Bool) : Mem (Option ConnBlocks) := do
  match ← malloc with
  | none => return none
  | some c => do
      access c
      match ← malloc with
      | none =>
          free c
          return none
      | some rbuf => do
          access c
          if tcpInitFails then
            free rbuf
            free c
            return none
          else
            access c
            if acceptFails ∨ readStartFails then return some { conn := { closes := 1 }, self := c, rbuf := rbuf }
            else return some { conn := {}, self := c, rbuf := rbuf }

def ConnBlocks.dispatchLine (line : Bytes) (c : ConnBlocks) : Mem ConnBlocks := do
  match ← malloc with
  | none => c.startClosing
  | some w => do
      access w
      match ← malloc with
      | none =>
          free w
          c.startClosing
      | some lineBuf => do
          access c.rbuf
          access lineBuf
          access w
          match ← malloc with
          | none =>
              free lineBuf
              free w
              c.startClosing
          | some respBuf => do
              access w
              access c.self
              return { c with
                conn := { c.conn with
                  busy := true, works := c.conn.works ++ [{ line := line }], lines := c.conn.lines ++ [line] }
                works := c.works ++ [⟨w, lineBuf, respBuf⟩] }

def ConnBlocks.onReadLoop : Nat → Nat → ConnBlocks → Mem (ConnBlocks × Nat)
  | 0, scan, c => return (c, scan)
  | fuel + 1, scan, c => do
      access c.self
      if c.conn.busy ∨ c.conn.closing then return (c, scan)
      else
        access c.rbuf
        match memchr (c.conn.rbuf.drop scan) with
        | none => return (c, scan)
        | some llen => do
            let c ← c.dispatchLine ((c.conn.rbuf.drop scan).take llen)
            c.onReadLoop fuel (scan + llen + 1)

-- on_read from the memcpy into rbuf on.
def ConnBlocks.append (base : Ptr) (chunk : Bytes) (c : ConnBlocks) : Mem ConnBlocks := do
  access c.rbuf
  access base
  access c.self
  free base
  let (c, scan) ← ConnBlocks.onReadLoop ((c.conn.rbuf ++ chunk).length + 1) 0
    { c with conn := { c.conn with rbuf := c.conn.rbuf ++ chunk } }
  access c.rbuf
  access c.self
  return { c with conn := { c.conn with rbuf := c.conn.rbuf.drop scan } }

def ConnBlocks.onReadData (base : Ptr) (chunk : Bytes) (c : ConnBlocks) : Mem ConnBlocks := do
  access c.self
  let conn := { c.conn with received := c.conn.received ++ chunk }
  let need := c.conn.rbuf.length + chunk.length
  if c.conn.rcap < need then
    let ncap := grow need c.conn.rcap
    if RBUF_MAX_CAP < ncap then
      free base
      ConnBlocks.startClosing { c with conn := conn }
    else
      match ← realloc c.rbuf with
      | none => do
          free base
          ConnBlocks.startClosing { c with conn := conn }
      | some nb => do
          access c.self
          ConnBlocks.append base chunk { c with conn := { conn with rcap := ncap }, rbuf := nb }
  else ConnBlocks.append base chunk { c with conn := conn }

def ConnBlocks.tryDispatchNext (c : ConnBlocks) : Mem ConnBlocks := do
  access c.self
  if c.conn.closing then c.maybeClose
  else if c.conn.busy then return c
  else
    access c.rbuf
    match memchr c.conn.rbuf with
    | none => return c
    | some llen => do
        let c ← c.dispatchLine (c.conn.rbuf.take llen)
        access c.rbuf
        access c.self
        return { c with conn := { c.conn with rbuf := c.conn.rbuf.drop (llen + 1) } }

end Callbacks

-- What libuv passes to on_read: nread and, if it is positive, the bytes.
inductive Nread where
  | again
  | data (chunk : Bytes)
  | fails

section Callbacks

-- alloc_cb and on_read. Without a buffer on_read is told UV_ENOBUFS.
def ConnBlocks.read (nread : Nread) (c : ConnBlocks) : Mem ConnBlocks := do
  match ← malloc with
  | none => c.startClosing
  | some base =>
      match nread with
      | .again => do
          access c.self
          free base
          return c
      | .data chunk => c.onReadData base chunk
      | .fails => do
          access c.self
          free base
          c.startClosing

-- The worker reads the line of its request.
def ConnBlocks.parse (c : ConnBlocks) : Mem ConnBlocks :=
  match c.works with
  | w :: _ => do
      access w.req
      access w.line
      return c
  | [] => return c

-- reply, called by the worker that has the request.
def WorkBlocks.reply (s : Bytes) (len : Nat) (w : WorkBlocks) (work : WorkReq) : Mem (WorkBlocks × WorkReq) := do
  if len = 0 then return (w, work)
  else
    access w.req
    if work.respCap < work.resp.length + len then
      match ← realloc w.resp with
      | none => do
          access w.req
          return (w, work.reply false s len)
      | some nb => do
          access nb
          access w.req
          return ({ w with resp := nb }, work.reply true s len)
    else
      access w.resp
      access w.req
      return (w, work.reply true s len)

def ConnBlocks.reply (s : Bytes) (len : Nat) (c : ConnBlocks) : Mem ConnBlocks :=
  match c.works, c.conn.works with
  | w :: works, work :: rest => do
      let (w, work) ← w.reply s len work
      return { c with works := w :: works, conn := { c.conn with works := work :: rest } }
  | _, _ => return c

def ConnBlocks.afterWorkCb (status : Int) (writeFails : Bool) (c : ConnBlocks) : Mem ConnBlocks :=
  match c.works, c.conn.works with
  | w :: works, work :: rest => do
      access w.req
      access c.self
      let conn := { c.conn with works := rest }
      if status < 0 ∨ c.conn.closing ∨ work.oom ∨ work.resp = [] then
        w.free
        ConnBlocks.maybeClose { c with
          conn := { conn with busy := false, answered := conn.answered ++ [(work.line, [])] }, works := works }
      else
        access w.resp
        if writeFails then
          w.free
          ConnBlocks.startClosing { c with conn := { conn with busy := false }, works := works }
        else
          return { c with
            conn := { conn with writes := conn.writes ++ [work] }, works := works, writes := c.writes ++ [w] }
  | _, _ => return c

def ConnBlocks.onWrite (status : Int) (c : ConnBlocks) : Mem ConnBlocks :=
  match c.writes, c.conn.writes with
  | w :: writes, work :: rest => do
      access w.req
      access c.self
      let conn := { c.conn with busy := false, writes := rest }
      w.free
      if status < 0 then ConnBlocks.startClosing { c with conn := conn, writes := writes }
      else
        ConnBlocks.tryDispatchNext { c with
          conn := { conn with
            answered := conn.answered ++ [(work.line, work.resp)], written := conn.written ++ work.resp }
          writes := writes }
  | _, _ => return c

end Callbacks

-- The callbacks of the event loop, and what a worker does to the heap; a
-- connection is named by its place.
inductive Callback where
  | onConnection (tcpInitFails acceptFails readStartFails : Bool)
  | read (i : Nat) (nread : Nread)
  | parse (i : Nat)
  | reply (i : Nat) (s : Bytes) (len : Nat)
  | afterWork (i : Nat) (status : Int) (writeFails : Bool)
  | onWrite (i : Nat) (status : Int)
  | onClose (i : Nat)

structure Loop where
  heap : Heap.State := {}
  conns : List ConnBlocks := []

section Events

-- libuv reads only before uv_close, and calls on_close once, after it.
def Nread.Legal (c : Conn) : Nread → Prop
  | .data chunk => c.closes = 0 ∧ chunk ≠ [] ∧ chunk.length ≤ READ_CHUNK
  | _ => c.closes = 0

instance (c : Conn) : (nread : Nread) → Decidable (nread.Legal c)
  | .again => inferInstanceAs (Decidable (_ = _))
  | .data _ => inferInstanceAs (Decidable (_ ∧ _))
  | .fails => inferInstanceAs (Decidable (_ = _))

-- A callback of the connection in this place.
def Loop.turn (fails : Nat → Bool) (loop : Loop) (i : Nat) (callback : ConnBlocks → Mem ConnBlocks) : Loop :=
  match loop.conns[i]? with
  | none => loop
  | some c =>
      let (c, heap) := (callback c).exec (handle fails) loop.heap
      { heap := heap, conns := loop.conns.set i c }

def Loop.next (fails : Nat → Bool) (loop : Loop) : Callback → Loop
  | .onConnection tcpInitFails acceptFails readStartFails =>
      let (c, heap) := (onConnection tcpInitFails acceptFails readStartFails).exec (handle fails) loop.heap
      { heap := heap, conns := loop.conns ++ c.toList }
  | .read i nread => loop.turn fails i fun c => if nread.Legal c.conn then c.read nread else return c
  | .parse i => loop.turn fails i (·.parse)
  | .reply i s len => loop.turn fails i (·.reply s len)
  | .afterWork i status writeFails => loop.turn fails i (·.afterWorkCb status writeFails)
  | .onWrite i status => loop.turn fails i (·.onWrite status)
  | .onClose i =>
      match loop.conns[i]? with
      | none => loop
      | some c =>
          if c.conn.closes = 0 then loop
          else { heap := (c.onClose.exec (handle fails) loop.heap).2, conns := loop.conns.eraseIdx i }

end Events

end Solidbits

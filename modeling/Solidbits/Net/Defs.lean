import Solidbits.Parser.Defs

namespace Solidbits

def READ_CHUNK : Nat := 4096
def RBUF_INIT_CAP : Nat := 4096
def RBUF_MAX_CAP : Nat := 64 * 1024
def RESP_INIT_CAP : Nat := 64

def NEWLINE : UInt8 := 10

-- The part of struct work_req that the connection and the worker share. The
-- job lives in the program of the worker.
structure WorkReq where
  line : Bytes
  resp : Bytes := []
  respCap : Nat := RESP_INIT_CAP
  oom : Bool := false

-- struct conn_t with rbuf cut to rlen, then what libuv holds for the
-- connection, then the history of what went in and out.
structure Conn where
  rbuf : Bytes := []
  rcap : Nat := RBUF_INIT_CAP
  busy : Bool := false
  closing : Bool := false
  works : List WorkReq := []
  writes : List WorkReq := []
  closes : Nat := 0
  received : Bytes := []
  lines : List Bytes := []
  answered : List (Bytes × Bytes) := []
  written : Bytes := []

section Buffers

-- while (ncap < need) ncap *= 2; the fuel is enough for every positive capacity.
def growLoop (need : Nat) : Nat → Nat → Nat
  | 0, ncap => ncap
  | fuel + 1, ncap => if ncap < need then growLoop need fuel (2 * ncap) else ncap

def grow (need cap : Nat) : Nat := if cap < need then growLoop need need cap else cap

def WorkReq.reply (w : WorkReq) (reallocOk : Bool) (s : Bytes) (len : Nat) : WorkReq :=
  if len = 0 then w
  else if w.respCap < w.resp.length + len then
    if reallocOk then
      { w with resp := w.resp ++ s.take len, respCap := grow (w.resp.length + len) w.respCap }
    else { w with oom := true }
  else { w with resp := w.resp ++ s.take len }

-- The distance from the start to the first newline.
def memchr (p : Bytes) : Option Nat := p.findIdx? (· = NEWLINE)

end Buffers

section Callbacks

def maybeClose (c : Conn) : Conn :=
  if c.closing ∧ ¬c.busy then { c with closes := c.closes + 1 } else c

def startClosing (c : Conn) : Conn := maybeClose { c with closing := true }

def dispatchLine (allocFails : Bool) (line : Bytes) (c : Conn) : Conn :=
  if allocFails then startClosing c
  else { c with busy := true, works := c.works ++ [{ line := line }], lines := c.lines ++ [line] }

-- The loop of on_read; scan is where the rest of the buffer begins.
def onReadLoop (allocFails : Bool) : Nat → Nat → Conn → Conn × Nat
  | 0, scan, c => (c, scan)
  | fuel + 1, scan, c =>
      if c.busy ∨ c.closing then (c, scan)
      else
        match memchr (c.rbuf.drop scan) with
        | none => (c, scan)
        | some llen =>
            onReadLoop allocFails fuel (scan + llen + 1)
              (dispatchLine allocFails ((c.rbuf.drop scan).take llen) c)

def onReadData (reallocFails allocFails : Bool) (chunk : Bytes) (c : Conn) : Conn :=
  let c := { c with received := c.received ++ chunk }
  let need := c.rbuf.length + chunk.length
  let ncap := grow need c.rcap
  if c.rcap < need ∧ (RBUF_MAX_CAP < ncap ∨ reallocFails) then startClosing c
  else
    let c := { c with rbuf := c.rbuf ++ chunk, rcap := ncap }
    let (c, scan) := onReadLoop allocFails (c.rbuf.length + 1) 0 c
    { c with rbuf := c.rbuf.drop scan }

def tryDispatchNext (allocFails : Bool) (c : Conn) : Conn :=
  if c.closing then maybeClose c
  else if c.busy then c
  else
    match memchr c.rbuf with
    | none => c
    | some llen =>
        let c := dispatchLine allocFails (c.rbuf.take llen) c
        { c with rbuf := c.rbuf.drop (llen + 1) }

-- after_work_cb for the request at the head of the queue, as the worker left it.
-- On the first path the connection forgets the request without a reply.
def afterWorkCb (status : Int) (writeFails : Bool) (w : WorkReq) (c : Conn) : Conn :=
  let c := { c with works := c.works.tail }
  if status < 0 ∨ c.closing ∨ w.oom ∨ w.resp = [] then
    maybeClose { c with busy := false, answered := c.answered ++ [(w.line, [])] }
  else if writeFails then startClosing { c with busy := false }
  else { c with writes := c.writes ++ [w] }

def onWrite (status : Int) (allocFails : Bool) (w : WorkReq) (c : Conn) : Conn :=
  let c := { c with busy := false, writes := c.writes.tail }
  if status < 0 then startClosing c
  else
    tryDispatchNext allocFails
      { c with answered := c.answered ++ [(w.line, w.resp)], written := c.written ++ w.resp }

end Callbacks

-- The callbacks libuv makes on an accepted connection. A read of 0 bytes does
-- nothing and is left out; an end of file or a read error is `readEnd`. The
-- worker's results come with the completion.
inductive Event where
  | read (chunk : Bytes) (reallocFails allocFails : Bool)
  | readEnd
  | afterWork (status : Int) (resp : Bytes) (oom writeFails : Bool)
  | onWrite (status : Int) (allocFails : Bool)

section Events

-- libuv reads 1 to READ_CHUNK bytes and never after uv_close; a completion
-- belongs to a request that is outstanding.
def Conn.next (c : Conn) : Event → Conn
  | .read chunk reallocFails allocFails =>
      if c.closes = 0 ∧ chunk ≠ [] ∧ chunk.length ≤ READ_CHUNK then
        onReadData reallocFails allocFails chunk c
      else c
  | .readEnd => if c.closes = 0 then startClosing c else c
  | .afterWork status resp oom writeFails =>
      match c.works with
      | [] => c
      | w :: _ => afterWorkCb status writeFails { w with resp := resp, oom := oom } c
  | .onWrite status allocFails =>
      match c.writes with
      | [] => c
      | w :: _ => onWrite status allocFails w c

end Events

end Solidbits

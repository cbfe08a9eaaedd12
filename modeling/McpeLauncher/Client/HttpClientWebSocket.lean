import Mathlib.Data.List.Basic
import Mathlib.Data.List.Pairwise

/-!
# Messages of a web socket

`HttpClientWebSocket::connect` puts the pieces that `curl_ws_recv` returns into one buffer and
delivers what is in it when a piece ends a message. `disconnect` is not called meanwhile. Below the
code is what a server may send, and how curl cuts it into pieces.
-/

namespace McpeLauncher.Client

/-! ## The client -/

/-- `ws_msg`, without the bytes behind `len`. -/
structure WsMsg where
  data : List UInt8
  cap : Nat
  fits : data.length ≤ cap

def WsMsg.empty : WsMsg := ⟨[], 0, Nat.le_refl 0⟩

/-- `msg.len = 0`, which keeps the buffer. -/
def WsMsg.clear (m : WsMsg) : WsMsg := ⟨[], m.cap, Nat.zero_le _⟩

def wsAppend (m : WsMsg) (src : List UInt8) : WsMsg where
  data := m.data ++ src
  cap := if m.data.length + src.length > m.cap then (m.data.length + src.length) * 2 else m.cap
  fits := by
    rw [List.length_append]
    split <;> omega

/-- The flags of `curl_ws_frame`. -/
structure WsFlags where
  text : Bool
  binary : Bool
  cont : Bool
  close : Bool
  ping : Bool
  pong : Bool

/-- What a call of `curl_ws_recv` returns with `CURLE_OK`. -/
structure Piece where
  flags : WsFlags
  data : List UInt8
  bytesleft : Nat

inductive Recv
  | again
  | failed
  | piece (p : Piece)

/-- The methods that are invoked, and the frames that are sent. -/
inductive WsOut
  | onOpen
  | onMessage (data : List UInt8)
  | onBinaryMessage (data : List UInt8)
  | pong (data : List UInt8)
  | onClose (status : Int)
  | onFailure

structure WebSocket where
  msg : WsMsg
  log : List WsOut

namespace WebSocket

/-- A turn of the loop with a piece; there is no result if the loop is left. -/
def handle (s : WebSocket) (p : Piece) : Option WebSocket :=
  if p.flags.close then none
  else if p.flags.ping then some { s with log := s.log ++ [.pong p.data] }
  else
    let msg := wsAppend s.msg p.data
    if p.bytesleft = 0 ∧ p.flags.cont = false then
      let out :=
        if p.flags.text then [.onMessage msg.data]
        else if p.flags.binary then [.onBinaryMessage msg.data]
        else []
      some { msg := msg.clear, log := s.log ++ out }
    else some { s with msg }

def recvLoop (s : WebSocket) : List Recv → WebSocket
  | [] => s
  | .again :: rs => recvLoop s rs
  | .failed :: _ => s
  | .piece p :: rs =>
    match s.handle p with
    | none => s
    | some s => recvLoop s rs

end WebSocket

/-- What the client does when the connection is made or fails. -/
def connect (performed : Bool) (recvs : List Recv) : List WsOut :=
  if performed then
    [.onOpen] ++ (WebSocket.recvLoop ⟨.empty, []⟩ recvs).log ++ [.onClose 0]
  else [.onFailure]

/-! ## The server -/

inductive Control
  | ping (payload : List UInt8)
  | pong (payload : List UInt8)

/-- A fragment of a message, with the control frames that are sent before it. -/
structure Part where
  controls : List Control
  payload : List UInt8

structure Message where
  binary : Bool
  /-- The fragments before the last one. -/
  parts : List Part
  final : Part

/-- What is sent: messages, and control frames after them. -/
structure Script where
  messages : List Message
  trailing : List Control

/-- A frame as libcurl describes it. -/
structure Frame where
  flags : WsFlags
  payload : List UInt8

def Control.frame : Control → Frame
  | .ping payload => ⟨⟨false, false, false, false, true, false⟩, payload⟩
  | .pong payload => ⟨⟨false, false, false, false, false, true⟩, payload⟩

def Part.frames (binary cont : Bool) (p : Part) : List Frame :=
  p.controls.map Control.frame ++ [⟨⟨!binary, binary, cont, false, false, false⟩, p.payload⟩]

def Message.frames (m : Message) : List Frame :=
  m.parts.flatMap (Part.frames m.binary true) ++ m.final.frames m.binary false

def Script.frames (s : Script) : List Frame :=
  s.messages.flatMap Message.frames ++ s.trailing.map Control.frame

/-! ## What curl makes of it -/

/-- A frame is cut into pieces of at most 512 bytes; the last one is that after which nothing is
left. -/
inductive Cut (flags : WsFlags) : List UInt8 → List Piece → Prop
  | last {data : List UInt8} (size : data.length ≤ 512) : Cut flags data [⟨flags, data, 0⟩]
  | more {data rest : List UInt8} {pieces : List Piece} (size : data.length ≤ 512)
      (left : rest ≠ [])
      (cut : Cut flags rest pieces) :
      Cut flags (data ++ rest) (⟨flags, data, rest.length⟩ :: pieces)

inductive Pieces : List Frame → List Piece → Prop
  | nil : Pieces [] []
  | cons {f : Frame} {fs : List Frame} {ps qs : List Piece} (cut : Cut f.flags f.payload ps)
      (rest : Pieces fs qs) : Pieces (f :: fs) (ps ++ qs)

def Recv.piece? : Recv → Option Piece
  | .piece p => some p
  | _ => none

/-- The calls of `curl_ws_recv` return the frames, between calls that return `CURLE_AGAIN`. -/
def Arrives (frames : List Frame) (recvs : List Recv) : Prop :=
  Recv.failed ∉ recvs ∧ Pieces frames (recvs.filterMap Recv.piece?)

/-! ## What should come of it -/

def Control.ping? : Control → Option (List UInt8)
  | .ping payload => some payload
  | .pong _ => none

def Message.pings (m : Message) : List (List UInt8) :=
  (m.parts ++ [m.final]).flatMap fun p => p.controls.filterMap Control.ping?

def Script.pings (s : Script) : List (List UInt8) :=
  s.messages.flatMap Message.pings ++ s.trailing.filterMap Control.ping?

/-- The kind of a message and its payload. -/
def Message.content (m : Message) : Bool × List UInt8 :=
  (m.binary, (m.parts ++ [m.final]).flatMap Part.payload)

def delivered (log : List WsOut) : List (Bool × List UInt8) :=
  log.filterMap fun
    | .onMessage data => some (false, data)
    | .onBinaryMessage data => some (true, data)
    | _ => none

def pongs (log : List WsOut) : List (List UInt8) :=
  log.filterMap fun
    | .pong data => some data
    | _ => none

/-- Each ping is answered by one or more pongs that have its payload together. -/
def Answers (pongs pings : List (List UInt8)) : Prop :=
  ∃ groups : List (List (List UInt8)),
    groups.flatten = pongs ∧ groups.map List.flatten = pings ∧ ∀ g ∈ groups, g ≠ []

/-- The messages are delivered as they were sent, and the pings are answered. -/
def Reassembled (script : Script) (recvs : List Recv) : Prop :=
  delivered (connect true recvs) = script.messages.map Message.content ∧
    Answers (pongs (connect true recvs)) script.pings

def Control.isPong : Control → Bool
  | .ping _ => false
  | .pong _ => true

def Part.hasPong (p : Part) : Bool := p.controls.any Control.isPong

/-- No pong comes after a fragment that is not empty. -/
def Message.Undisturbed (m : Message) : Prop :=
  (m.parts ++ [m.final]).Pairwise fun p q => p.payload = [] ∨ q.hasPong = false

/-! ## A frame -/

theorem delivered_append (l m : List WsOut) : delivered (l ++ m) = delivered l ++ delivered m :=
  List.filterMap_append

theorem pongs_append (l m : List WsOut) : pongs (l ++ m) = pongs l ++ pongs m :=
  List.filterMap_append

theorem pongs_map_pong (l : List (List UInt8)) : pongs (l.map .pong) = l := by
  induction l with
  | nil => rfl
  | cons a l ih => exact congrArg (a :: ·) ih

theorem delivered_map_pong (l : List (List UInt8)) : delivered (l.map .pong) = [] := by
  induction l with
  | nil => rfl
  | cons a l ih => exact ih

namespace WebSocket

variable {s : WebSocket} {flags : WsFlags} {payload buffer : List UInt8} {pieces : List Piece}
  {sent : List (Bool × List UInt8)} {pings : List (List UInt8)}

/-- The loop without the calls that return nothing. -/
def take (s : WebSocket) (p : Piece) : WebSocket := (s.handle p).getD s

theorem recvLoop_eq {recvs : List Recv} (hfailed : Recv.failed ∉ recvs)
    (hclose : ∀ p ∈ recvs.filterMap Recv.piece?, p.flags.close = false) :
    recvLoop s recvs = (recvs.filterMap Recv.piece?).foldl take s := by
  induction recvs generalizing s with
  | nil => rfl
  | cons r recvs ih =>
    have hrest : Recv.failed ∉ recvs := fun h => hfailed (.tail r h)
    cases r with
    | again => exact ih hrest hclose
    | failed => exact absurd (.head recvs) hfailed
    | piece p =>
      obtain ⟨s', hs'⟩ : ∃ s', s.handle p = some s' := by
        rw [handle, if_neg (Bool.eq_false_iff.mp (hclose p (.head _)))]
        split
        · exact ⟨_, rfl⟩
        · dsimp only
          split
          · exact ⟨_, rfl⟩
          · exact ⟨_, rfl⟩
      have htake : s.take p = s' := by rw [take, hs', Option.getD_some]
      have hcons : (Recv.piece p :: recvs).filterMap Recv.piece? =
          p :: recvs.filterMap Recv.piece? := rfl
      rw [hcons, List.foldl_cons, htake, recvLoop, hs']
      exact ih hrest fun q hq => hclose q (.tail p hq)

/-- What is in the buffer, what was delivered, and which pings were answered. -/
structure Shows (s : WebSocket) (buffer : List UInt8) (sent : List (Bool × List UInt8))
    (pings : List (List UInt8)) : Prop where
  buffer : s.msg.data = buffer
  delivered : delivered s.log = sent
  answers : Answers (pongs s.log) pings

theorem Answers.snoc {pongs group : List (List UInt8)} (h : Answers pongs pings)
    (hne : group ≠ []) :
    Answers (pongs ++ group) (pings ++ [group.flatten]) := by
  obtain ⟨groups, hpongs, hpings, hall⟩ := h
  refine ⟨groups ++ [group], ?_, ?_, ?_⟩
  · rw [List.flatten_append, hpongs, List.flatten_singleton]
  · rw [List.map_append, hpings]
    rfl
  · intro g hg
    rcases List.mem_append.mp hg with hg | hg
    · exact hall g hg
    · exact List.mem_singleton.mp hg ▸ hne

/-- The pieces of a ping are sent back. -/
theorem foldl_ping (hclose : flags.close = false) (hping : flags.ping = true)
    (cut : Cut flags payload pieces) (s : WebSocket) :
    pieces ≠ [] ∧ (pieces.map Piece.data).flatten = payload ∧
      pieces.foldl take s = { s with log := s.log ++ (pieces.map Piece.data).map WsOut.pong } := by
  have htake : ∀ (s : WebSocket) data left,
      s.take ⟨flags, data, left⟩ = { s with log := s.log ++ [.pong data] } := by
    intro s data left
    simp [take, handle, hclose, hping]
  induction cut generalizing s with
  | last size =>
    refine ⟨List.cons_ne_nil _ _, by simp, ?_⟩
    exact htake s _ _
  | more size left cut ih =>
    obtain ⟨-, hdata, hfold⟩ := ih (s.take _)
    refine ⟨List.cons_ne_nil _ _, by rw [List.map_cons, List.flatten_cons, hdata], ?_⟩
    rw [List.foldl_cons, hfold, htake]
    simp

/-- The other frames go to the buffer, which is emptied by a frame that is not continued. -/
theorem foldl_data (hclose : flags.close = false) (hping : flags.ping = false)
    (cut : Cut flags payload pieces) (s : WebSocket) :
    (pieces.foldl take s).msg.data = (if flags.cont then s.msg.data ++ payload else []) ∧
      (pieces.foldl take s).log = s.log ++
        if flags.cont then [] else if flags.text then [.onMessage (s.msg.data ++ payload)]
        else if flags.binary then [.onBinaryMessage (s.msg.data ++ payload)] else [] := by
  induction cut generalizing s with
  | last size =>
    cases hcont : flags.cont with
    | true => simp [take, handle, hclose, hping, hcont, wsAppend]
    | false => simp [take, handle, hclose, hping, hcont, wsAppend, WsMsg.clear]
  | @more data rest pieces size left cut ih =>
    have htake : s.take ⟨flags, data, rest.length⟩ = { s with msg := wsAppend s.msg data } := by
      have hlen : rest.length ≠ 0 := fun h => left (List.eq_nil_of_length_eq_zero h)
      simp [take, handle, hclose, hping, hlen]
    obtain ⟨hmsg, hlog⟩ := ih (s.take ⟨flags, data, rest.length⟩)
    rw [htake] at hmsg hlog
    rw [List.foldl_cons, htake, hmsg, hlog]
    simp [wsAppend]

theorem Shows.ping (h : Shows s buffer sent pings)
    (cut : Cut (Control.ping payload).frame.flags payload pieces) :
    Shows (pieces.foldl take s) buffer sent (pings ++ [payload]) := by
  obtain ⟨hne, hdata, hfold⟩ := foldl_ping rfl rfl cut s
  rw [hfold]
  refine ⟨h.buffer, ?_, ?_⟩
  · rw [delivered_append, delivered_map_pong, List.append_nil]
    exact h.delivered
  · rw [pongs_append, pongs_map_pong, ← hdata]
    exact Answers.snoc h.answers fun h => hne (List.map_eq_nil_iff.mp h)

/-- A pong empties the buffer. -/
theorem Shows.pong (h : Shows s buffer sent pings)
    (cut : Cut (Control.pong payload).frame.flags payload pieces) :
    Shows (pieces.foldl take s) [] sent pings := by
  obtain ⟨hmsg, hlog⟩ := foldl_data rfl rfl cut s
  refine ⟨hmsg, ?_, ?_⟩
  · rw [hlog, delivered_append]
    exact (List.append_nil _).trans h.delivered
  · rw [hlog, pongs_append]
    exact (List.append_nil _).symm ▸ h.answers

/-- A fragment that is continued is put into the buffer. -/
theorem Shows.fragment (h : Shows s buffer sent pings) {binary : Bool}
    (cut : Cut ⟨!binary, binary, true, false, false, false⟩ payload pieces) :
    Shows (pieces.foldl take s) (buffer ++ payload) sent pings := by
  obtain ⟨hmsg, hlog⟩ := foldl_data rfl rfl cut s
  have hlog' : (pieces.foldl take s).log = s.log := hlog.trans (List.append_nil _)
  refine ⟨?_, ?_, ?_⟩
  · rw [hmsg, ← h.buffer]
    rfl
  · rw [hlog']
    exact h.delivered
  · rw [hlog']
    exact h.answers

/-- The last fragment delivers the message. -/
theorem Shows.final (h : Shows s buffer sent pings) {binary : Bool}
    (cut : Cut ⟨!binary, binary, false, false, false, false⟩ payload pieces) :
    Shows (pieces.foldl take s) [] (sent ++ [(binary, buffer ++ payload)]) pings := by
  obtain ⟨hmsg, hlog⟩ := foldl_data rfl rfl cut s
  refine ⟨hmsg, ?_, ?_⟩
  · rw [hlog, delivered_append, h.delivered, h.buffer]
    cases binary with
    | false => rfl
    | true => rfl
  · rw [hlog, pongs_append]
    cases binary with
    | false => exact (List.append_nil _).symm ▸ h.answers
    | true => exact (List.append_nil _).symm ▸ h.answers

/-! ## A message -/

theorem exists_pieces_append {fs gs : List Frame} (h : Pieces (fs ++ gs) pieces) :
    ∃ ps qs, pieces = ps ++ qs ∧ Pieces fs ps ∧ Pieces gs qs := by
  induction fs generalizing pieces with
  | nil => exact ⟨[], pieces, rfl, .nil, h⟩
  | cons f fs ih =>
    cases h with
    | cons cut rest =>
      obtain ⟨ps, qs, rfl, hps, hqs⟩ := ih rest
      exact ⟨_, qs, (List.append_assoc ..).symm, .cons cut hps, hqs⟩

theorem Shows.controls (h : Shows s buffer sent pings) {cs : List Control}
    (hp : Pieces (cs.map Control.frame) pieces) :
    Shows (pieces.foldl take s) (if cs.any Control.isPong then [] else buffer) sent
      (pings ++ cs.filterMap Control.ping?) := by
  induction cs generalizing s buffer pings pieces with
  | nil =>
    cases hp with
    | nil =>
      rw [List.filterMap_nil, List.append_nil]
      exact h
  | cons c cs ih =>
    cases hp with
    | cons cut rest =>
      rw [List.foldl_append]
      cases c with
      | ping payload =>
        have hrest := ih (h.ping cut) rest
        rw [List.append_assoc] at hrest
        exact hrest
      | pong payload =>
        have hrest := ih (h.pong cut) rest
        rw [ite_self] at hrest
        exact hrest

/-- What the buffer holds after some fragments and the control frames before them. -/
def assemble (buffer : List UInt8) : List Part → List UInt8
  | [] => buffer
  | p :: ps => assemble ((if p.hasPong then [] else buffer) ++ p.payload) ps

theorem Shows.parts (h : Shows s buffer sent pings) {binary : Bool} {ps : List Part}
    (hp : Pieces (ps.flatMap (Part.frames binary true)) pieces) :
    Shows (pieces.foldl take s) (assemble buffer ps) sent
      (pings ++ ps.flatMap fun p => p.controls.filterMap Control.ping?) := by
  induction ps generalizing s buffer pings pieces with
  | nil =>
    cases hp with
    | nil =>
      rw [List.flatMap_nil, List.append_nil]
      exact h
  | cons p ps ih =>
    rw [List.flatMap_cons, Part.frames, List.append_assoc] at hp
    obtain ⟨qs, rs, rfl, hcontrols, hrest⟩ := exists_pieces_append hp
    cases hrest with
    | cons cut hrest =>
      rw [List.foldl_append, List.foldl_append, List.flatMap_cons, ← List.append_assoc]
      exact ih ((h.controls hcontrols).fragment cut) hrest

/-- What is delivered for a message. -/
def received (m : Message) : Bool × List UInt8 := (m.binary, assemble [] (m.parts ++ [m.final]))

theorem assemble_append (buffer : List UInt8) (ps qs : List Part) :
    assemble buffer (ps ++ qs) = assemble (assemble buffer ps) qs := by
  induction ps generalizing buffer with
  | nil => rfl
  | cons p ps ih => exact ih _

theorem Shows.message (h : Shows s [] sent pings) {m : Message} (hp : Pieces m.frames pieces) :
    Shows (pieces.foldl take s) [] (sent ++ [received m]) (pings ++ m.pings) := by
  obtain ⟨ps, qs, rfl, hparts, hfinal⟩ := exists_pieces_append hp
  obtain ⟨cs, rs, rfl, hcontrols, hlast⟩ := exists_pieces_append hfinal
  cases hlast with
  | cons cut hnil =>
    cases hnil with
    | nil =>
      have hshows := ((h.parts hparts).controls hcontrols).final cut
      rw [List.append_assoc] at hshows
      rw [List.append_nil, List.foldl_append, List.foldl_append, received, assemble_append,
        Message.pings, List.flatMap_append, List.flatMap_singleton]
      exact hshows

theorem Shows.messages (h : Shows s [] sent pings) {ms : List Message}
    (hp : Pieces (ms.flatMap Message.frames) pieces) :
    Shows (pieces.foldl take s) [] (sent ++ ms.map received)
      (pings ++ ms.flatMap Message.pings) := by
  induction ms generalizing s sent pings pieces with
  | nil =>
    cases hp with
    | nil =>
      rw [List.map_nil, List.flatMap_nil, List.append_nil, List.append_nil]
      exact h
  | cons m ms ih =>
    obtain ⟨ps, qs, rfl, hm, hms⟩ := exists_pieces_append hp
    have hshows := ih (h.message hm) hms
    rw [List.append_assoc, List.append_assoc] at hshows
    rw [List.foldl_append]
    exact hshows

theorem Shows.script {script : Script} (hp : Pieces script.frames pieces) :
    Shows (pieces.foldl take ⟨.empty, []⟩) [] (script.messages.map received) script.pings := by
  obtain ⟨ps, qs, rfl, hms, htrailing⟩ := exists_pieces_append hp
  have hinit : Shows ⟨.empty, []⟩ [] [] [] :=
    ⟨rfl, rfl, [], rfl, rfl, fun _ h => absurd h List.not_mem_nil⟩
  have hshows := (hinit.messages hms).controls htrailing
  rw [ite_self] at hshows
  rw [List.foldl_append]
  exact hshows

/-! ## When messages are kept -/

theorem assemble_cons_of_pong {p : Part} (h : p.hasPong = true) (buffer : List UInt8)
    (ps : List Part) : assemble buffer (p :: ps) = assemble p.payload ps := by
  rw [assemble, if_pos h, List.nil_append]

theorem assemble_cons_of_not_pong {p : Part} (h : p.hasPong = false) (buffer : List UInt8)
    (ps : List Part) : assemble buffer (p :: ps) = assemble (buffer ++ p.payload) ps := by
  rw [assemble, if_neg (Bool.eq_false_iff.mp h)]

theorem assemble_length_le (buffer : List UInt8) (ps : List Part) :
    (assemble buffer ps).length ≤ (buffer ++ ps.flatMap Part.payload).length := by
  induction ps generalizing buffer with
  | nil =>
    rw [List.flatMap_nil, List.append_nil]
    exact Nat.le_refl _
  | cons p ps ih =>
    rw [List.flatMap_cons]
    cases hpong : p.hasPong with
    | true =>
      have hle := ih p.payload
      rw [assemble_cons_of_pong hpong]
      simp only [List.length_append] at hle ⊢
      omega
    | false =>
      rw [assemble_cons_of_not_pong hpong, ← List.append_assoc]
      exact ih _

/-- A pong loses what is in the buffer, and nothing else does. -/
theorem assemble_eq_iff (buffer : List UInt8) (ps : List Part) :
    assemble buffer ps = buffer ++ ps.flatMap Part.payload ↔
      (buffer = [] ∨ ∀ p ∈ ps, p.hasPong = false) ∧
        ps.Pairwise fun p q => p.payload = [] ∨ q.hasPong = false := by
  induction ps generalizing buffer with
  | nil =>
    rw [List.flatMap_nil, List.append_nil]
    exact iff_of_true rfl ⟨.inr fun p hp => absurd hp List.not_mem_nil, .nil⟩
  | cons p ps ih =>
    have hpair : (∀ q ∈ ps, p.payload = [] ∨ q.hasPong = false) ↔
        (p.payload = [] ∨ ∀ q ∈ ps, q.hasPong = false) := by
      by_cases hp : p.payload = []
      · simp [hp]
      · simp [hp]
    rw [List.flatMap_cons, List.pairwise_cons, hpair, List.forall_mem_cons]
    cases hpong : p.hasPong with
    | true =>
      rw [assemble_cons_of_pong hpong]
      constructor
      · intro h
        have hle := assemble_length_le p.payload ps
        have hbuffer : buffer = [] := by
          rw [h] at hle
          simp only [List.length_append] at hle
          exact List.eq_nil_of_length_eq_zero (by omega)
        rw [hbuffer, List.nil_append, ih] at h
        exact ⟨.inl hbuffer, h⟩
      · rintro ⟨hbuffer | hno, h⟩
        · rw [hbuffer, List.nil_append, ih]
          exact h
        · exact absurd hno.1 (Ne.symm Bool.false_ne_true)
    | false =>
      rw [assemble_cons_of_not_pong hpong, ← List.append_assoc, ih, List.append_eq_nil_iff]
      tauto

theorem received_eq_iff (m : Message) : received m = m.content ↔ m.Undisturbed := by
  have h := assemble_eq_iff [] (m.parts ++ [m.final])
  rw [List.nil_append, and_iff_right (.inl rfl)] at h
  rw [received, Message.content, Prod.mk.injEq, and_iff_right rfl]
  exact h

theorem close_of_mem_frames {script : Script} {f : Frame} (hf : f ∈ script.frames) :
    f.flags.close = false := by
  have hcontrol : ∀ c : Control, c.frame.flags.close = false := by
    intro c
    cases c with
    | ping payload => rfl
    | pong payload => rfl
  have hpart : ∀ binary cont (p : Part), ∀ f ∈ p.frames binary cont, f.flags.close = false := by
    intro binary cont p f hf
    rcases List.mem_append.mp hf with hf | hf
    · obtain ⟨c, -, rfl⟩ := List.mem_map.mp hf
      exact hcontrol c
    · rw [List.mem_singleton.mp hf]
  rcases List.mem_append.mp hf with hf | hf
  · obtain ⟨m, -, hf⟩ := List.mem_flatMap.mp hf
    rcases List.mem_append.mp hf with hf | hf
    · obtain ⟨p, -, hf⟩ := List.mem_flatMap.mp hf
      exact hpart _ _ p f hf
    · exact hpart _ _ _ f hf
  · obtain ⟨c, -, rfl⟩ := List.mem_map.mp hf
    exact hcontrol c

theorem flags_of_cut (cut : Cut flags payload pieces) : ∀ p ∈ pieces, p.flags = flags := by
  induction cut with
  | last size =>
    intro p hp
    rw [List.mem_singleton.mp hp]
  | more size left cut ih =>
    intro p hp
    rcases List.mem_cons.mp hp with rfl | hp
    · rfl
    · exact ih p hp

theorem exists_frame_of_pieces {frames : List Frame} (h : Pieces frames pieces) :
    ∀ p ∈ pieces, ∃ f ∈ frames, p.flags = f.flags := by
  induction h with
  | nil => exact fun p hp => absurd hp List.not_mem_nil
  | cons cut rest ih =>
    intro p hp
    rcases List.mem_append.mp hp with hp | hp
    · exact ⟨_, .head _, flags_of_cut cut p hp⟩
    · obtain ⟨f, hf, heq⟩ := ih p hp
      exact ⟨f, .tail _ hf, heq⟩

theorem connect_shows {script : Script} {recvs : List Recv} (h : Arrives script.frames recvs) :
    delivered (connect true recvs) = script.messages.map received ∧
      Answers (pongs (connect true recvs)) script.pings := by
  have hclose : ∀ p ∈ recvs.filterMap Recv.piece?, p.flags.close = false := by
    intro p hp
    obtain ⟨f, hf, heq⟩ := exists_frame_of_pieces h.2 p hp
    rw [heq]
    exact close_of_mem_frames hf
  have hshows := Shows.script h.2
  rw [← recvLoop_eq h.1 hclose] at hshows
  rw [connect, if_pos rfl, delivered_append, delivered_append, pongs_append,
    pongs_append]
  refine ⟨(List.append_nil _).trans hshows.delivered, ?_⟩
  exact (List.append_nil _).symm ▸ hshows.answers

end WebSocket

/-- **When messages are reassembled**: exactly when no pong comes in the middle of one, after a
fragment that is not empty. -/
theorem reassembled_iff (script : Script) (recvs : List Recv) (h : Arrives script.frames recvs) :
    Reassembled script recvs ↔ ∀ m ∈ script.messages, m.Undisturbed := by
  obtain ⟨hdelivered, hanswers⟩ := WebSocket.connect_shows h
  rw [Reassembled, and_iff_left hanswers, hdelivered, List.map_inj_left]
  exact forall₂_congr fun m _ => WebSocket.received_eq_iff m

/-- A text in two fragments, with a control frame between them. -/
def twoFragments (c : Control) : Script :=
  ⟨[⟨false, [⟨[], [0x61]⟩], ⟨[c], [0x62]⟩⟩], []⟩

/-- Each frame in one piece, and a call that returns nothing. -/
def wholeFrames (c : Control) : List Recv :=
  [.piece ⟨⟨true, false, true, false, false, false⟩, [0x61], 0⟩, .again,
    .piece ⟨c.frame.flags, c.frame.payload, 0⟩,
    .piece ⟨⟨true, false, false, false, false, false⟩, [0x62], 0⟩]

theorem arrives_wholeFrames (c : Control) (hc : c.frame.payload.length ≤ 512) :
    Arrives (twoFragments c).frames (wholeFrames c) := by
  have hone : ∀ b : UInt8, [b].length ≤ 512 := fun _ => Nat.le_of_ble_eq_true rfl
  refine ⟨by simp [wholeFrames], ?_⟩
  show Pieces [_, _, _] ([_] ++ ([_] ++ ([_] ++ [])))
  exact .cons (.last (hone _)) (.cons (.last hc) (.cons (.last (hone _)) .nil))

theorem reassembled_pinged :
    Reassembled (twoFragments (.ping [0x70])) (wholeFrames (.ping [0x70])) := by
  apply (reassembled_iff _ _ (arrives_wholeFrames (.ping [0x70]) (by decide))).mpr
  intro m hm
  rw [List.mem_singleton.mp hm]
  refine .cons (fun q hq => .inr (List.mem_singleton.mp hq ▸ rfl)) ?_
  exact List.pairwise_singleton _ _

/-- The first fragment is lost. -/
theorem not_reassembled_ponged :
    Arrives (twoFragments (.pong [])).frames (wholeFrames (.pong [])) ∧
      ¬Reassembled (twoFragments (.pong [])) (wholeFrames (.pong [])) :=
  ⟨arrives_wholeFrames (.pong []) (by decide), fun h => absurd h.1 (by decide)⟩

end McpeLauncher.Client

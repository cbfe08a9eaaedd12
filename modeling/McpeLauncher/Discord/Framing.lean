import McpeLauncher.Discord.DiscordIpc

/-!
# Frames are kept apart

`readFrame` takes whole frames from the front of the stream, or closes the socket: an open socket
always stands in front of a header. So the frames that any calls get are the first ones that the
peer sent, and what `pump` and `sendFrame` write decodes to the frames that they were to write.
-/

namespace McpeLauncher.Discord
open Codec

/-! ## The wire format -/

namespace Frame

variable {f : Frame} {header : List UInt8}

@[simp] theorem header_length (f : Frame) : f.header.length = kFrameHeaderSize := by
  rw [Frame.header, List.length_append, leBytes_length, leBytes_length, kFrameHeaderSize]

theorem parseHeader_header (f : Frame) :
    parseHeader f.header = (f.opcode, UInt32.ofNat f.payload.length) := by
  have hword (w : UInt32) : UInt32.ofNat (leNat (leBytes 4 w.toNat)) = w := by
    have hlt : w.toNat < 256 ^ 4 := w.toNat_lt
    rw [leNat_leBytes, Nat.mod_eq_of_lt hlt, UInt32.ofNat_toNat]
  rw [parseHeader, Frame.header, List.take_left' (leBytes_length ..),
    List.drop_left' (leBytes_length ..), hword, hword]

/-- The header of a frame is determined by the words that were read from it. -/
theorem header_eq_of_parseHeader (hlen : header.length = kFrameHeaderSize)
    (hpayload : f.payload.length = (parseHeader header).2.toNat)
    (hopcode : f.opcode = (parseHeader header).1) : f.header = header := by
  have hword (bytes : List UInt8) (h : bytes.length = 4) :
      leBytes 4 (UInt32.ofNat (leNat bytes)).toNat = bytes := by
    have hlt : leNat bytes < UInt32.size := by simpa [h] using leNat_lt bytes
    rw [UInt32.toNat_ofNat_of_lt' hlt, ← h, leBytes_leNat]
  have htake : (header.take 4).length = 4 := by rw [List.length_take, hlen]; rfl
  have hdrop : (header.drop 4).length = 4 := by rw [List.length_drop, hlen]; rfl
  rw [Frame.header, hpayload, hopcode, UInt32.ofNat_toNat, parseHeader, hword _ htake,
    hword _ hdrop, List.take_append_drop]

theorem decode_nil : decode [] = none := rfl

theorem decode_encode (h : f.payload.length < UInt32.size) : SelfDelimiting encode decode f := by
  intro rest
  have htake : (f.encode ++ rest).take kFrameHeaderSize = f.header := by
    rw [encode, List.append_assoc, List.take_left' (header_length f)]
  have hdrop : (f.encode ++ rest).drop kFrameHeaderSize = f.payload ++ rest := by
    rw [encode, List.append_assoc, List.drop_left' (header_length f)]
  have hlen : (UInt32.ofNat f.payload.length).toNat = f.payload.length :=
    UInt32.toNat_ofNat_of_lt' h
  have hcond : kFrameHeaderSize ≤ (f.encode ++ rest).length ∧
      f.payload.length ≤ (f.payload ++ rest).length := by
    simp only [encode, List.length_append, header_length]
    omega
  simp only [decode, htake, hdrop, parseHeader_header, hlen, if_pos hcond, List.take_left,
    List.drop_left]

theorem decode_encode_of_le (h : f.payload.length ≤ maxPayload) :
    SelfDelimiting encode decode f :=
  decode_encode (Nat.lt_of_le_of_lt h (by decide))

end Frame

/-- The answer to a frame that `pump` takes. -/
def Frame.reply (f : Frame) : Option Frame :=
  if f.opcode = .ping then some ⟨.pong, f.payload⟩ else none

theorem Frame.reply_payload {f g : Frame} (h : f.reply = some g) : g.payload = f.payload := by
  rw [Frame.reply] at h
  split at h
  · cases h; rfl
  · cases h

def ReadResult.frames : ReadResult Frame → List Frame
  | .Got f => [f]
  | .Timeout | .Error => []

namespace DiscordIpc

variable {s t u : DiscordIpc} {f : Frame}

/-! ## What each loop can end with -/

/-- How a loop that reads up to `len` bytes ends: it has them, or it gave up with nothing read, or
the socket is closed. -/
inductive LoopEnd (s : DiscordIpc) (got : List UInt8) (len : Nat) (before : List Poll)
    (mayTimeout : Prop) : ReadResult (List UInt8) × DiscordIpc → Prop
  | got {bytes incoming : List UInt8} {polls : List Poll} (length : bytes.length = len)
      (taken : got ++ s.incoming = bytes ++ incoming) (polls_le : polls.length ≤ before.length)
      (polls_lt : got.length < len → polls.length < before.length) :
      LoopEnd s got len before mayTimeout
        (.Got bytes, { s with incoming := incoming, polls := polls })
  | timeout {polls : List Poll} (may : mayTimeout) (nothing : got = []) :
      LoopEnd s got len before mayTimeout (.Timeout, { s with polls := polls })
  | error {incoming : List UInt8} {polls : List Poll} :
      LoopEnd s got len before mayTimeout
        (.Error, disconnect { s with incoming := incoming, polls := polls })

variable {got : List UInt8} {len : Nat} {polls : List Poll} {may : Prop}
  {r : ReadResult (List UInt8) × DiscordIpc}

/-- A loop that has received some bytes and goes on. -/
theorem LoopEnd.ready {k : Nat} {p : Poll} (hbytes : s.incoming.take k ≠ [])
    (h : LoopEnd { s with incoming := s.incoming.drop (s.incoming.take k).length }
      (got ++ s.incoming.take k) len polls may r) :
    LoopEnd s got len (p :: polls) may r := by
  have hsplit : s.incoming.take k ++ s.incoming.drop (s.incoming.take k).length = s.incoming := by
    rw [List.length_take]
    rcases Nat.le_total k s.incoming.length with hk | hk
    · rw [Nat.min_eq_left hk, List.take_append_drop]
    · rw [Nat.min_eq_right hk, List.take_of_length_le hk, List.drop_length, List.append_nil]
  cases h with
  | got length taken polls_le polls_lt =>
    refine .got length ?_ (Nat.le_succ_of_le polls_le) fun _ => Nat.lt_succ_of_le polls_le
    rw [← taken, List.append_assoc, hsplit]
  | timeout may nothing =>
    -- a time-out is reported only if nothing was read before it
    exact absurd (List.append_eq_nil_iff.mp nothing).2 hbytes
  | error => exact .error

/-- The bytes that a loop received do not exceed what it wants. -/
theorem length_append_take_le {n : Nat} (hlen : got.length < len) (incoming : List UInt8) :
    (got ++ incoming.take (min n (len - got.length))).length ≤ len := by
  rw [List.length_append, List.length_take]
  omega

theorem LoopEnd.interrupted {p : Poll} (h : LoopEnd s got len polls may r) :
    LoopEnd s got len (p :: polls) may r := by
  cases h with
  | got length taken polls_le _ =>
    exact .got length taken (Nat.le_succ_of_le polls_le) fun _ => Nat.lt_succ_of_le polls_le
  | timeout may nothing => exact .timeout may nothing
  | error => exact .error

theorem LoopEnd.done (hle : got.length ≤ len) (hge : len ≤ got.length) :
    LoopEnd s got len polls may (.Got got, { s with polls := polls }) :=
  .got (Nat.le_antisymm hle hge) rfl Nat.le.refl fun hlt => absurd hge (Nat.not_le.mpr hlt)

theorem readHeader_spec (s : DiscordIpc) (got : List UInt8) (polls : List Poll)
    (hgot : got.length ≤ kFrameHeaderSize) :
    LoopEnd s got kFrameHeaderSize polls True (readHeader s got polls) := by
  induction polls generalizing s got with
  | nil =>
    rw [readHeader]
    split
    · exact .done hgot ‹_›
    · split
      · exact .timeout trivial ‹_›
      · exact .error
  | cons poll polls ih =>
    by_cases hfull : kFrameHeaderSize ≤ got.length
    · cases poll <;> (rw [readHeader, if_pos hfull]; exact .done hgot hfull)
    · cases poll with
      | interrupted =>
        rw [readHeader, if_neg hfull]
        exact (ih s got hgot).interrupted
      | failed =>
        rw [readHeader, if_neg hfull]
        exact .error
      | timeout =>
        rw [readHeader, if_neg hfull]
        split
        · exact .timeout trivial ‹_›
        · exact .error
      | ready n =>
        rw [readHeader, if_neg hfull]
        dsimp only
        split
        · exact .error
        · exact .ready ‹_› (ih _ _ (length_append_take_le (Nat.not_le.mp hfull) _))
      | recvFailed =>
        rw [readHeader, if_neg hfull]
        exact .error

theorem readPayload_spec (s : DiscordIpc) (len : Nat) (got : List UInt8) (polls : List Poll)
    (hgot : got.length ≤ len) :
    LoopEnd s got len polls False (readPayload s len got polls) := by
  induction polls generalizing s got with
  | nil =>
    rw [readPayload]
    split
    · exact .done hgot ‹_›
    · exact .error
  | cons poll polls ih =>
    by_cases hfull : len ≤ got.length
    · cases poll <;> (rw [readPayload, if_pos hfull]; exact .done hgot hfull)
    · cases poll with
      | ready n =>
        rw [readPayload, if_neg hfull]
        dsimp only
        split
        · exact .error
        · exact .ready ‹_› (ih _ _ (length_append_take_le (Nat.not_le.mp hfull) _))
      | interrupted | failed | timeout | recvFailed =>
        rw [readPayload, if_neg hfull]
        exact .error

/-- How `readFrame` ends: it takes a whole frame, or nothing, or the socket is closed. -/
inductive FrameEnd (s : DiscordIpc) : ReadResult Frame × DiscordIpc → Prop
  | closed (closed : s.connected = false) : FrameEnd s (.Error, s)
  | got {f : Frame} {incoming : List UInt8} {polls : List Poll} (open_ : s.connected = true)
      (capped : f.payload.length ≤ maxPayload) (taken : s.incoming = f.encode ++ incoming)
      (polls_lt : polls.length < s.polls.length) :
      FrameEnd s (.Got f, { s with incoming := incoming, polls := polls })
  | timeout {polls : List Poll} (open_ : s.connected = true) :
      FrameEnd s (.Timeout, { s with polls := polls })
  | error {incoming : List UInt8} {polls : List Poll} (open_ : s.connected = true) :
      FrameEnd s (.Error, disconnect { s with incoming := incoming, polls := polls })

theorem readFrame_spec (s : DiscordIpc) : FrameEnd s (readFrame s) := by
  rw [readFrame]
  split
  next hconn =>
    have hheader := readHeader_spec s [] s.polls (Nat.zero_le _)
    generalize readHeader s [] s.polls = r at hheader
    cases hheader with
    | timeout => exact .timeout hconn
    | error => exact .error hconn
    | @got header incoming polls hlength htaken _ hlt =>
      dsimp only
      split
      · exact .error hconn
      next hcap =>
        have hpayload := readPayload_spec { s with incoming := incoming, polls := polls }
          (Frame.parseHeader header).2.toNat [] polls (Nat.zero_le _)
        generalize readPayload { s with incoming := incoming, polls := polls }
          (Frame.parseHeader header).2.toNat [] polls = r at hpayload
        cases hpayload with
        | timeout may => exact may.elim
        | error => exact .error hconn
        | @got payload incoming' polls' hlen htaken' hle _ =>
          have hhead := Frame.header_eq_of_parseHeader (f := ⟨_, payload⟩) hlength hlen rfl
          refine .got hconn (hlen ▸ Nat.not_lt.mp hcap) ?_
            (Nat.lt_of_le_of_lt hle (hlt (by decide)))
          rw [Frame.encode, hhead, List.append_assoc]
          exact htaken.trans (congrArg _ htaken')
  next hclosed => exact .closed (Bool.eq_false_iff.mpr hclosed)

/-- How a loop that sends `left` ends: all is sent, or a part of it and the socket is closed. -/
inductive SendEnd (s : DiscordIpc) (left : List UInt8) (before : List Send) :
    Bool × DiscordIpc → Prop
  | sent {sends : List Send} (rest : sends <:+ before) :
      SendEnd s left before (true, { s with sends := sends, written := s.written ++ left })
  | failed {sends : List Send} {part : List UInt8} (rest : sends <:+ before)
      (mem : .failed ∈ before) (sub : part <+: left) :
      SendEnd s left before
        (false, disconnect { s with sends := sends, written := s.written ++ part })

variable {left : List UInt8} {sends before : List Send} {result : Bool × DiscordIpc}

theorem SendEnd.mono (h : SendEnd s left sends result) (hrest : sends <:+ before) :
    SendEnd s left before result := by
  cases h with
  | sent rest => exact .sent (rest.trans hrest)
  | failed rest mem sub => exact .failed (rest.trans hrest) (hrest.subset mem) sub

/-- A part is sent and then what is left. -/
theorem SendEnd.append {part : List UInt8} {sends' : List Send} (hrest : sends <:+ before)
    (h : SendEnd { s with sends := sends', written := s.written ++ part } left sends result) :
    SendEnd s (part ++ left) before result := by
  cases h.mono hrest with
  | sent rest =>
    simp only [List.append_assoc]
    exact .sent rest
  | failed rest mem sub =>
    simp only [List.append_assoc]
    exact .failed rest mem ((List.prefix_append_right_inj part).mpr sub)

theorem sendAll_spec (s : DiscordIpc) (left : List UInt8) (sends : List Send) :
    SendEnd s left sends (sendAll s left sends) := by
  induction sends generalizing s left with
  | nil => exact .sent List.suffix_rfl
  | cons send sends ih =>
    have hrest : sends <:+ send :: sends := List.suffix_cons _ _
    by_cases hleft : left = []
    · subst hleft
      have h : SendEnd s [] (send :: sends)
          (true, { s with sends := send :: sends, written := s.written ++ [] }) :=
        .sent List.suffix_rfl
      rw [List.append_nil] at h
      cases send <;> exact h
    · cases send with
      | interrupted =>
        rw [sendAll, if_neg hleft]
        exact (ih s left).mono hrest
      | failed =>
        rw [sendAll, if_neg hleft]
        have h := SendEnd.failed (s := s) hrest (.head _) (List.nil_prefix (l := left))
        rwa [List.append_nil] at h
      | short n =>
        rw [sendAll, if_neg hleft]
        have hdrop := ih { s with written := s.written ++ left.take n } (left.drop n)
        have h := SendEnd.append hrest hdrop
        rwa [List.take_append_drop] at h

theorem sendFrame_spec (hconn : s.connected = true) (f : Frame) :
    SendEnd s f.encode s.sends (sendFrame s f) := by
  rw [sendFrame, if_pos hconn]
  have hheader := sendAll_spec s f.header s.sends
  generalize sendAll s f.header s.sends = r at hheader
  cases hheader with
  | sent rest => exact .append rest (sendAll_spec _ f.payload _)
  | failed rest mem sub => exact .failed rest mem (sub.trans (List.prefix_append ..))

/-! ## Frames that come in and go out -/

/-- From `s` to `t` the frames `got` came in and the frames `sent` were to go out. -/
structure Moves (s t : DiscordIpc) (got sent : List Frame) : Prop where
  closed : s.connected = false → t = s ∧ got = [] ∧ sent = []
  capped : ∀ f ∈ got, f.payload.length ≤ maxPayload
  taken : got.flatMap Frame.encode <+: s.incoming
  synced : t.connected = true → s.incoming = got.flatMap Frame.encode ++ t.incoming
  sends : t.sends <:+ s.sends
  part : t.written <+: s.written ++ sent.flatMap Frame.encode
  whole : t.connected = true ∨ .failed ∉ s.sends →
    t.written = s.written ++ sent.flatMap Frame.encode

variable {got₁ got₂ sent₁ sent₂ : List Frame}

theorem Moves.refl (s : DiscordIpc) : Moves s s [] [] where
  closed _ := ⟨rfl, rfl, rfl⟩
  capped _ hf := by cases hf
  taken := List.nil_prefix
  synced _ := rfl
  sends := List.suffix_rfl
  part := List.prefix_append ..
  whole _ := (List.append_nil _).symm

theorem Moves.trans (h₁ : Moves s t got₁ sent₁) (h₂ : Moves t u got₂ sent₂) :
    Moves s u (got₁ ++ got₂) (sent₁ ++ sent₂) := by
  by_cases ht : t.connected = true
  · have hincoming := h₁.synced ht
    have hwritten := h₁.whole (.inl ht)
    constructor
    case closed =>
      intro hs
      rw [(h₁.closed hs).1, hs] at ht
      cases ht
    case capped =>
      intro f hf
      exact (List.mem_append.mp hf).elim (h₁.capped f) (h₂.capped f)
    case taken =>
      rw [List.flatMap_append, hincoming]
      exact (List.prefix_append_right_inj _).mpr h₂.taken
    case synced =>
      intro hu
      rw [List.flatMap_append, hincoming, h₂.synced hu, List.append_assoc]
    case sends => exact h₂.sends.trans h₁.sends
    case part =>
      rw [List.flatMap_append, ← List.append_assoc, ← hwritten]
      exact h₂.part
    case whole =>
      intro h
      rw [List.flatMap_append, ← List.append_assoc, ← hwritten]
      exact h₂.whole (h.imp_right fun hfail hmem => hfail (h₁.sends.subset hmem))
  · -- nothing moves on a socket that the first step has closed
    obtain ⟨rfl, rfl, rfl⟩ := h₂.closed (Bool.eq_false_iff.mpr ht)
    rwa [List.append_nil, List.append_nil]

theorem disconnect_moves (s : DiscordIpc) : Moves s (disconnect s) [] [] where
  closed h := ⟨by rw [disconnect, ← h], rfl, rfl⟩
  capped _ hf := by cases hf
  taken := List.nil_prefix
  synced h := by cases h
  sends := List.suffix_rfl
  part := List.prefix_append ..
  whole _ := (List.append_nil _).symm

/-- A step that only reads. -/
theorem Moves.read {got : List Frame} {incoming : List UInt8} {polls : List Poll} {live : Bool}
    (hopen : s.connected = true) (hcapped : ∀ f ∈ got, f.payload.length ≤ maxPayload)
    (htaken : got.flatMap Frame.encode <+: s.incoming)
    (hsynced : live = true → s.incoming = got.flatMap Frame.encode ++ incoming) :
    Moves s { s with connected := live, incoming := incoming, polls := polls } got [] where
  closed h := by rw [hopen] at h; cases h
  capped := hcapped
  taken := htaken
  synced := hsynced
  sends := List.suffix_rfl
  part := List.prefix_append ..
  whole _ := (List.append_nil _).symm

theorem readFrame_moves (s : DiscordIpc) : Moves s (readFrame s).2 (readFrame s).1.frames [] := by
  have h := readFrame_spec s
  generalize readFrame s = r at h
  cases h with
  | closed => exact .refl s
  | @got f incoming polls hopen hcapped htaken =>
    have htaken : s.incoming = [f].flatMap Frame.encode ++ incoming := by
      rw [htaken, List.flatMap_singleton]
    apply Moves.read hopen
    · exact fun g hg => List.mem_singleton.mp hg ▸ hcapped
    · exact ⟨incoming, htaken.symm⟩
    · exact fun _ => htaken
  | timeout hopen => exact .read hopen (fun f hf => by cases hf) List.nil_prefix fun _ => rfl
  | error hopen => exact .read hopen (fun f hf => by cases hf) List.nil_prefix fun h => by cases h

/-- A step that only writes. -/
theorem Moves.write {sent : List Frame} {sends : List Send} {written : List UInt8} {live : Bool}
    (hopen : s.connected = true) (hsends : sends <:+ s.sends)
    (hpart : written <+: s.written ++ sent.flatMap Frame.encode)
    (hwhole : live = true ∨ .failed ∉ s.sends →
      written = s.written ++ sent.flatMap Frame.encode) :
    Moves s { s with connected := live, sends := sends, written := written } [] sent where
  closed h := by rw [hopen] at h; cases h
  capped _ hf := by cases hf
  taken := List.nil_prefix
  synced _ := rfl
  sends := hsends
  part := hpart
  whole := hwhole

theorem sendFrame_moves (hopen : s.connected = true) (f : Frame) :
    Moves s (sendFrame s f).2 [] [f] := by
  have h := sendFrame_spec hopen f
  generalize sendFrame s f = r at h
  have hf : [f].flatMap Frame.encode = f.encode := List.flatMap_singleton ..
  cases h with
  | sent rest =>
    apply Moves.write hopen rest
    · rw [hf]
    · intro _
      rw [hf]
  | failed rest mem sub =>
    apply Moves.write hopen rest
    · rw [hf]
      exact (List.prefix_append_right_inj _).mpr sub
    · rintro (h | h)
      · cases h
      · exact absurd mem h

theorem sendFrame_polls (s : DiscordIpc) (f : Frame) : (sendFrame s f).2.polls = s.polls := by
  by_cases hopen : s.connected = true
  · have h := sendFrame_spec hopen f
    generalize sendFrame s f = r at h
    cases h <;> rfl
  · rw [sendFrame, if_neg hopen]

theorem sendFrame_failed {f : Frame} (h : (sendFrame s f).1 = false) :
    (sendFrame s f).2.connected = false := by
  by_cases hopen : s.connected = true
  · have hspec := sendFrame_spec hopen f
    generalize sendFrame s f = r at h hspec
    cases hspec with
    | sent => cases h
    | failed => rfl
  · rw [sendFrame, if_neg hopen]
    exact Bool.eq_false_iff.mpr hopen

theorem readFrame_failed (h : readFrame s = (.Error, t)) : t.connected = false := by
  have hspec := readFrame_spec s
  rw [h] at hspec
  cases hspec with
  | closed hclosed => exact hclosed
  | error => rfl

theorem readFrame_got (h : readFrame s = (.Got f, t)) :
    t.connected = true ∧ t.polls.length < s.polls.length := by
  have hspec := readFrame_spec s
  rw [h] at hspec
  cases hspec with
  | got hopen _ _ polls_lt => exact ⟨hopen, polls_lt⟩

theorem consumeFrame_polls (s : DiscordIpc) (f : Frame) : (consumeFrame s f).polls = s.polls := by
  rw [consumeFrame]
  split
  · exact sendFrame_polls ..
  · split <;> rfl

theorem consumeFrame_moves (hopen : s.connected = true) (f : Frame) :
    Moves s (consumeFrame s f) [] f.reply.toList := by
  rw [consumeFrame, Frame.reply]
  split
  · exact sendFrame_moves hopen _
  · split
    · exact disconnect_moves s
    · exact .refl s

/-! ## The loop of `pump` -/

theorem reply_cons (f : Frame) (frames : List Frame) :
    (f :: frames).filterMap Frame.reply = f.reply.toList ++ frames.filterMap Frame.reply := by
  cases h : f.reply with
  | none => simp [h]
  | some g => simp [h]

theorem pumpLoop_moves (fuel : Nat) (s : DiscordIpc) :
    Moves s (pumpLoop fuel s).2.2 (pumpLoop fuel s).2.1
      ((pumpLoop fuel s).2.1.filterMap Frame.reply) := by
  induction fuel generalizing s with
  | zero => exact .refl s
  | succ fuel ih =>
    rw [pumpLoop]
    split
    · have hread := readFrame_moves s
      rcases hr : readFrame s with ⟨r, t⟩
      rw [hr] at hread
      cases r with
      | Timeout => exact hread
      | Error => exact hread
      | Got f =>
        have hconsume := consumeFrame_moves (readFrame_got hr).1 f
        have h := hread.trans (hconsume.trans (ih (consumeFrame t f)))
        dsimp only
        rwa [reply_cons]
    · exact .refl s

/-- With enough fuel the loop ends only at a time-out or with a closed socket. -/
theorem pumpLoop_failed {fuel : Nat} (hfuel : s.polls.length < fuel)
    (h : (pumpLoop fuel s).1 = false) : (pumpLoop fuel s).2.2.connected = false := by
  induction fuel generalizing s with
  | zero => cases hfuel
  | succ fuel ih =>
    rw [pumpLoop] at h ⊢
    split at h
    next hopen =>
      rw [if_pos hopen]
      rcases hr : readFrame s with ⟨r, t⟩
      rw [hr] at h
      cases r with
      | Timeout => cases h
      | Error => exact readFrame_failed hr
      | Got f =>
        refine ih ?_ h
        rw [consumeFrame_polls]
        exact Nat.lt_of_lt_of_le (readFrame_got hr).2 (Nat.le_of_lt_succ hfuel)
    next hclosed =>
      rw [if_neg hclosed]
      exact Bool.eq_false_iff.mpr hclosed

theorem pumpLoop_fuel {n m : Nat} (hn : s.polls.length < n) (hm : s.polls.length < m) :
    pumpLoop n s = pumpLoop m s := by
  induction n generalizing s m with
  | zero => cases hn
  | succ n ih =>
    cases m with
    | zero => cases hm
    | succ m =>
      rw [pumpLoop, pumpLoop]
      rcases hr : readFrame s with ⟨r, t⟩
      cases r with
      | Timeout | Error => rfl
      | Got f =>
        have hlt := (readFrame_got hr).2
        have hpolls : (consumeFrame t f).polls.length = t.polls.length := by
          rw [consumeFrame_polls]
        have h := ih (s := consumeFrame t f) (m := m) (by omega) (by omega)
        dsimp only
        rw [h]

/-- The loop as the source has it. -/
theorem pump_eq (s : DiscordIpc) :
    pump s =
      if s.connected then
        match readFrame s with
        | (.Timeout, t) => (true, [], t)
        | (.Error, t) => (false, [], t)
        | (.Got f, t) =>
          let (live, frames, u) := pump (consumeFrame t f)
          (live, f :: frames, u)
      else (false, [], s) := by
  rw [pump, pumpLoop]
  rcases hr : readFrame s with ⟨r, t⟩
  cases r with
  | Timeout | Error => rfl
  | Got f =>
    have h : pumpLoop s.polls.length (consumeFrame t f) = pump (consumeFrame t f) :=
      pumpLoop_fuel (by rw [consumeFrame_polls]; exact (readFrame_got hr).2) (Nat.lt_succ_self _)
    dsimp only
    rw [h]

theorem pump_moves (s : DiscordIpc) :
    Moves s (pump s).2.2 (pump s).2.1 ((pump s).2.1.filterMap Frame.reply) :=
  pumpLoop_moves ..

theorem pump_failed (h : (pump s).1 = false) : (pump s).2.2.connected = false :=
  pumpLoop_failed (Nat.lt_succ_self _) h

end DiscordIpc

/-! ## Runs -/

/-- The calls on an open socket; `connect` waits for the handshake with the same ones. -/
inductive Call
  | readFrame
  | pump
  | sendFrame (f : Frame)
  | disconnect

/-- The socket, the frames that `readFrame` has returned, also to `pump`, the frames that the peer
should get, and whether a call has reported an error. The peer should get the answer to each frame
that `pump` takes, and what `sendFrame` is given while the socket is open. -/
structure IpcRun where
  ipc : DiscordIpc
  got : List Frame
  due : List Frame
  failed : Bool

namespace IpcRun
open DiscordIpc

def start (frames : List Frame) (polls : List Poll) (sends : List Send) : IpcRun where
  ipc := ⟨true, frames.flatMap Frame.encode, polls, sends, []⟩
  got := []
  due := []
  failed := false

def step (r : IpcRun) : Call → IpcRun
  | .readFrame =>
    let (result, ipc) := DiscordIpc.readFrame r.ipc
    { r with ipc := ipc, got := r.got ++ result.frames, failed := r.failed || result = .Error }
  | .pump =>
    let (live, frames, ipc) := DiscordIpc.pump r.ipc
    ⟨ipc, r.got ++ frames, r.due ++ frames.filterMap Frame.reply, r.failed || !live⟩
  | .sendFrame f =>
    let (sent, ipc) := DiscordIpc.sendFrame r.ipc f
    ⟨ipc, r.got, if r.ipc.connected then r.due ++ [f] else r.due, r.failed || !sent⟩
  | .disconnect => { r with ipc := DiscordIpc.disconnect r.ipc }

def run (r : IpcRun) (calls : List Call) : IpcRun := calls.foldl step r

variable {r : IpcRun} {frames : List Frame} {polls : List Poll} {sends : List Send}

/-- What a call adds to the frames that came in and to those that are due. -/
theorem step_moves (r : IpcRun) (call : Call) :
    ∃ got sent, Moves r.ipc (r.step call).ipc got sent ∧ (r.step call).got = r.got ++ got ∧
      (r.step call).due = r.due ++ sent := by
  cases call with
  | readFrame => exact ⟨_, [], readFrame_moves r.ipc, rfl, (List.append_nil _).symm⟩
  | pump => exact ⟨_, _, pump_moves r.ipc, rfl, rfl⟩
  | sendFrame f =>
    by_cases hopen : r.ipc.connected = true
    · refine ⟨[], [f], sendFrame_moves hopen f, (List.append_nil _).symm, ?_⟩
      exact if_pos hopen
    · refine ⟨[], [], ?_, (List.append_nil _).symm, ?_⟩
      · have hipc : (r.step (.sendFrame f)).ipc = r.ipc := by
          simp only [step, DiscordIpc.sendFrame, if_neg hopen]
        rw [hipc]
        exact .refl r.ipc
      · rw [List.append_nil]
        exact if_neg hopen
  | disconnect =>
    exact ⟨[], [], disconnect_moves r.ipc, (List.append_nil _).symm, (List.append_nil _).symm⟩

theorem run_moves (r : IpcRun) (calls : List Call) :
    ∃ got sent, Moves r.ipc (r.run calls).ipc got sent ∧ (r.run calls).got = r.got ++ got ∧
      (r.run calls).due = r.due ++ sent := by
  induction calls generalizing r with
  | nil => exact ⟨[], [], .refl r.ipc, (List.append_nil _).symm, (List.append_nil _).symm⟩
  | cons call calls ih =>
    obtain ⟨got₁, sent₁, hmoves₁, hgot₁, hdue₁⟩ := step_moves r call
    obtain ⟨got₂, sent₂, hmoves₂, hgot₂, hdue₂⟩ := ih (r.step call)
    refine ⟨got₁ ++ got₂, sent₁ ++ sent₂, hmoves₁.trans hmoves₂, ?_, ?_⟩
    · rw [← List.append_assoc, ← hgot₁]
      exact hgot₂
    · rw [← List.append_assoc, ← hdue₁]
      exact hdue₂

/-- A closed socket stays closed, and no call on it reads or writes anything. -/
theorem run_of_closed (h : r.ipc.connected = false) (calls : List Call) :
    (r.run calls).ipc = r.ipc ∧ (r.run calls).got = r.got ∧ (r.run calls).due = r.due := by
  obtain ⟨got, sent, hmoves, hgot, hdue⟩ := run_moves r calls
  obtain ⟨hipc, rfl, rfl⟩ := hmoves.closed h
  exact ⟨hipc, hgot.trans (List.append_nil _), hdue.trans (List.append_nil _)⟩

/-- An error has been reported only if the socket is closed. -/
theorem step_failed (hr : r.failed = true → r.ipc.connected = false) {call : Call}
    (h : (r.step call).failed = true) : (r.step call).ipc.connected = false := by
  by_cases hopen : r.ipc.connected = true
  · have hfailed : r.failed = false := by
      cases hf : r.failed with
      | false => rfl
      | true => rw [hr hf] at hopen; cases hopen
    cases call with
    | readFrame =>
      rcases hread : DiscordIpc.readFrame r.ipc with ⟨result, t⟩
      simp only [step, hread, hfailed, Bool.false_or, decide_eq_true_eq] at h ⊢
      rw [h] at hread
      exact readFrame_failed hread
    | pump =>
      simp only [step, hfailed, Bool.false_or, Bool.not_eq_true'] at h ⊢
      exact pump_failed h
    | sendFrame f =>
      simp only [step, hfailed, Bool.false_or, Bool.not_eq_true'] at h ⊢
      exact sendFrame_failed h
    | disconnect => rfl
  · have hclosed := Bool.eq_false_iff.mpr hopen
    have hipc : (r.step call).ipc = r.ipc := (run_of_closed hclosed [call]).1
    rw [hipc]
    exact hclosed

theorem run_failed (hr : r.failed = true → r.ipc.connected = false) {calls : List Call}
    (h : (r.run calls).failed = true) : (r.run calls).ipc.connected = false := by
  induction calls generalizing r with
  | nil => exact hr h
  | cons call calls ih => exact ih (step_failed hr) h

/-- The run stays in step with the frames that the peer sends: an open socket stands in front of the
header of the next frame, and a closed one is neither read nor written any more. -/
structure InStep (frames : List Frame) (sends : List Send) (r : IpcRun) : Prop where
  got : r.got <+: frames
  boundary : r.ipc.connected = true →
    r.ipc.incoming = (frames.drop r.got.length).flatMap Frame.encode
  closed : r.failed = true → r.ipc.connected = false
  silent : r.ipc.connected = false → ∀ calls,
    (r.run calls).ipc = r.ipc ∧ (r.run calls).got = r.got ∧ (r.run calls).due = r.due
  part : r.ipc.written <+: r.due.flatMap Frame.encode
  whole : r.ipc.connected = true ∨ .failed ∉ sends →
    r.ipc.written = r.due.flatMap Frame.encode

theorem moves_run (frames : List Frame) (polls : List Poll) (sends : List Send)
    (calls : List Call) :
    Moves (start frames polls sends).ipc ((start frames polls sends).run calls).ipc
      ((start frames polls sends).run calls).got ((start frames polls sends).run calls).due := by
  obtain ⟨got, sent, hmoves, hgot, hdue⟩ := run_moves (start frames polls sends) calls
  rw [hgot, hdue]
  exact hmoves

theorem InStep.of_moves (hcap : ∀ f ∈ frames, f.payload.length ≤ maxPayload)
    (hmoves : Moves (start frames polls sends).ipc r.ipc r.got r.due)
    (hfailed : r.failed = true → r.ipc.connected = false) : InStep frames sends r := by
  obtain ⟨bytes, hbytes⟩ := hmoves.taken
  obtain ⟨rest, hframes, hrest⟩ := eq_append_of_flatMap Frame.decode_nil
    (fun f hf => Frame.decode_encode_of_le (hcap f hf))
    (fun f hf => Frame.decode_encode_of_le (hmoves.capped f hf)) hbytes.symm
  constructor
  case got => exact ⟨rest, hframes.symm⟩
  case boundary =>
    intro hopen
    have hincoming := List.append_cancel_left (hbytes.trans (hmoves.synced hopen))
    rw [← hincoming, hrest, hframes, List.drop_left]
  case closed => exact hfailed
  case silent => exact fun h later => run_of_closed h later
  case part => exact hmoves.part
  case whole => exact fun h => hmoves.whole h

theorem due_lt {calls : List Call}
    (hcalls : ∀ f, .sendFrame f ∈ calls → f.payload.length < UInt32.size)
    (hr : ∀ f ∈ r.due, f.payload.length < UInt32.size) :
    ∀ f ∈ (r.run calls).due, f.payload.length < UInt32.size := by
  induction calls generalizing r with
  | nil => exact hr
  | cons call calls ih =>
    refine ih (fun f hf => hcalls f (.tail _ hf)) ?_
    cases call with
    | readFrame => exact hr
    | disconnect => exact hr
    | pump =>
      intro f hf
      rcases List.mem_append.mp hf with hf | hf
      · exact hr f hf
      · obtain ⟨g, hg, hreply⟩ := List.mem_filterMap.mp hf
        rw [Frame.reply_payload hreply]
        exact Nat.lt_of_le_of_lt ((pump_moves r.ipc).capped g hg) (by decide)
    | sendFrame g =>
      intro f hf
      simp only [step] at hf
      split at hf
      · rcases List.mem_append.mp hf with hf | hf
        · exact hr f hf
        · rw [List.mem_singleton.mp hf]
          exact hcalls g (.head _)
      · exact hr f hf

/-- **Framing**: whatever the sockets do and whichever calls are made, the frames that come in are
the first ones that the peer sent, an error closes the socket for good, and what goes out decodes to
the frames that the peer should get. -/
theorem inStep_run (frames : List Frame) (hcap : ∀ f ∈ frames, f.payload.length ≤ maxPayload)
    (polls : List Poll) (sends : List Send) (calls : List Call) :
    InStep frames sends ((start frames polls sends).run calls) ∧
      (.failed ∉ sends → (∀ f, .sendFrame f ∈ calls → f.payload.length < UInt32.size) →
        ∀ fs, Decodes Frame.decode ((start frames polls sends).run calls).ipc.written fs ↔
          fs = ((start frames polls sends).run calls).due) := by
  have hin : InStep frames sends ((start frames polls sends).run calls) :=
    .of_moves hcap (moves_run frames polls sends calls) (run_failed fun h => by cases h)
  refine ⟨hin, fun hsends hcalls fs => ?_⟩
  have hdue := due_lt (r := start frames polls sends) hcalls fun f hf => by cases hf
  have hdecodes := decodes_flatMap fun f hf => Frame.decode_encode (hdue f hf)
  rw [← hin.whole (.inr hsends)] at hdecodes
  constructor
  · exact fun h => h.unique Frame.decode_nil hdecodes
  · rintro rfl
    exact hdecodes

/-- A ping and a frame whose bytes come in pieces, with a time-out between them. -/
theorem inStep_run_ping :
    ((start [⟨.ping, [1, 2]⟩, ⟨.frame, [7]⟩]
      [.ready 3, .interrupted, .ready 9, .ready 1, .ready 1, .timeout, .ready 8, .ready 5]
      [.short 3, .interrupted, .short 6]).run [.pump, .readFrame, .pump]).got =
        [⟨.ping, [1, 2]⟩, ⟨.frame, [7]⟩] ∧
    Decodes Frame.decode ((start [⟨.ping, [1, 2]⟩, ⟨.frame, [7]⟩]
      [.ready 3, .interrupted, .ready 9, .ready 1, .ready 1, .timeout, .ready 8, .ready 5]
      [.short 3, .interrupted, .short 6]).run [.pump, .readFrame, .pump]).ipc.written
        [⟨.pong, [1, 2]⟩] := by
  have hcap : ∀ f ∈ ([⟨.ping, [1, 2]⟩, ⟨.frame, [7]⟩] : List Frame),
      f.payload.length ≤ maxPayload := by decide +kernel
  have h := inStep_run [⟨.ping, [1, 2]⟩, ⟨.frame, [7]⟩] hcap
    [.ready 3, .interrupted, .ready 9, .ready 1, .ready 1, .timeout, .ready 8, .ready 5]
    [.short 3, .interrupted, .short 6] [.pump, .readFrame, .pump]
  have hdecodes := h.2 (by decide) (fun f hf => by simp at hf) [⟨.pong, [1, 2]⟩]
  exact ⟨by decide +kernel, hdecodes.mpr (by decide +kernel)⟩

end IpcRun

end McpeLauncher.Discord

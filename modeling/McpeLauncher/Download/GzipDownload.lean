import Mathlib.Algebra.Group.Int.Defs
import Mathlib.Algebra.Group.Nat.Defs
import McpeLauncher.Download.DownloadTask
import McpeLauncher.Lib.StreamDecoder

/-!
# The download of a file

`downloadFile` of `GoogleApkDownloadTask` writes what curl hands to its output function to a
temporary file, through zlib if the download is gzipped. zlib is a decoder that keeps its contract,
and what `write` does is given by an oracle.
-/

namespace McpeLauncher.Download

open StreamDecoder (Machine Inflate Flush)

/-! ## The temporary file -/

/-- The bytes of the file, how often `write` was called, and whether a call has written less than it
was given. -/
structure TempFile where
  bytes : List UInt8
  calls : Nat
  short : Bool

def TempFile.new : TempFile := ⟨[], 0, false⟩

/-- What each call of `write` can do: it fails, or there is place for some bytes. -/
abbrev Writes := Nat → Int

/-- `write` with the value it returns. -/
def TempFile.write (w : Writes) (file : TempFile) (data : List UInt8) : Int × TempFile :=
  let n := min (w file.calls).toNat data.length
  (if w file.calls < 0 then -1 else n,
    { bytes := file.bytes ++ data.take n
      calls := file.calls + 1
      short := file.short || decide (n < data.length) })

/-- The conversion from `ssize_t` to `size_t`. -/
def toSize (n : Int) : Nat := (n % 2 ^ 64).toNat

/-! ## The output function -/

variable {M : Machine UInt8 UInt8}

/-- The `z_stream` and the file. -/
structure Sink (I : Inflate M) where
  zs : I.σ
  file : TempFile

variable (I : Inflate M) (w : Writes)

/-- The loop of `curlDoZlibInflate`: `data` is the input that is left. -/
def inflateLoop (sink : Sink I) (data : List UInt8) (flags : Flush) : Bool × Sink I :=
  let c := I.inflate sink.zs data 4096 flags
  if c.ret = .streamError then (false, ⟨c.state, sink.file⟩)
  else
    let r := sink.file.write w c.output
    if toSize r.1 ≠ c.output.length then (false, ⟨c.state, r.2⟩)
    -- `avail_out` is what the output has left of the buffer
    else if 4096 - c.output.length = 0 then
      inflateLoop ⟨c.state, r.2⟩ (data.drop c.consumed) flags
    else (true, ⟨c.state, r.2⟩)
termination_by I.pending sink.zs data
decreasing_by
  have hfull : 4096 - (I.inflate sink.zs data 4096 flags).output.length = 0 := by assumption
  exact I.pending_inflate_lt (by omega)

/-- `avail_in` is a `uInt`. -/
def curlDoZlibInflate (sink : Sink I) (data : List UInt8) (flags : Flush) : Bool × Sink I :=
  inflateLoop I w sink (data.take (data.length % 2 ^ 32)) flags

/-- The function that `set_custom_output_func` is given. -/
def outputFunc (isGzipped : Bool) (sink : Sink I) (data : List UInt8) : Nat × Sink I :=
  if isGzipped then
    let r := curlDoZlibInflate I w sink data .noFlush
    (if r.1 then data.length else 0, r.2)
  else
    let r := sink.file.write w data
    (toSize r.1, { sink with file := r.2 })

/-! ## The request -/

/-- What curl hands to the output function at once is at most `CURL_MAX_WRITE_SIZE` long. -/
structure Chunk where
  data : List UInt8
  length_le : data.length ≤ 16384

def stream (chunks : List Chunk) : List UInt8 := chunks.flatMap Chunk.data

/-- curl stops as soon as the output function does not return the size it was given. -/
def receive (isGzipped : Bool) : Sink I → List Chunk → Bool × Sink I
  | sink, [] => (true, sink)
  | sink, c :: cs =>
    let r := outputFunc I w isGzipped sink c.data
    if r.1 = c.data.length then receive isGzipped r.2 cs else (false, r.2)

/-- The body of a response in the chunks that curl makes of it, the status, how the request ends if
no output function stops it, and what curl says about each error. -/
structure Transfer where
  chunks : List Chunk
  status : Int
  curlerr : Nat
  errbuf : Nat → String

def CURLE_OK : Nat := 0
def CURLE_WRITE_ERROR : Nat := 23

structure DeliveryData where
  downloadurl : String
  gzippeddownloadurl : Option String

structure HttpResponse where
  curlCode : Nat
  statusCode : Int
  body : String

/-- The file when it is closed, whether it is added to `files`, the errors that are emitted, and the
callback that is called. -/
structure Outcome where
  file : TempFile
  pushed : Bool
  errors : List String
  callback : Callback

/-- The end of the handler of a response. -/
def respond (file : TempFile) (resp : HttpResponse) : Outcome :=
  if resp.curlCode = CURLE_OK then
    if resp.statusCode = 200 then ⟨file, true, [], .success⟩
    else
      ⟨file, false, ["Downloading file failed: Status[" ++ toString resp.statusCode ++ "] '" ++
        resp.body ++ "'"], .error⟩
  else ⟨file, false, ["CURL Network error: Unknown error"], .error⟩

def requestError (url errbuf : String) (curlerr : Nat) : String :=
  "Failed to perform http request to " ++ url ++ " : CURLcode " ++ toString curlerr ++
    " Details: " ++ errbuf

/-- Both handlers flush the stream and drop the result. The body of the response is empty, because
the output function has taken it. -/
def downloadFile (dryrun : Bool) (dd : DeliveryData) (t : Transfer) : Outcome :=
  if dryrun then ⟨.new, false, [], .success⟩
  else
    let isGzipped := dd.gzippeddownloadurl.isSome
    let url := dd.gzippeddownloadurl.getD dd.downloadurl
    let r := receive I w isGzipped ⟨I.init, .new⟩ t.chunks
    let curlerr := if r.1 then t.curlerr else CURLE_WRITE_ERROR
    let sink := if isGzipped then (curlDoZlibInflate I w r.2 [] .finish).2 else r.2
    if curlerr = CURLE_OK then respond sink.file ⟨curlerr, t.status, ""⟩
    else ⟨sink.file, false, [requestError url (t.errbuf curlerr) curlerr], .error⟩

/-- The server has sent the chunks with the status 200. -/
def served (chunks : List Chunk) (errbuf : Nat → String) : Transfer where
  chunks := chunks
  status := 200
  curlerr := CURLE_OK
  errbuf := errbuf

/-- Whatever `write` does, a gzipped download that succeeds has got one member, which is what the
file holds; and it ends with an error if the stream is something else or a write was short. -/
def AllOrNothing (downloadurl gzippedurl : String) (errbuf : Nat → String)
    (chunks : List Chunk) : Prop :=
  ∀ w o, downloadFile I w false ⟨downloadurl, some gzippedurl⟩ (served chunks errbuf) = o →
    (o.callback = .success → M.Member (stream chunks) o.file.bytes) ∧
    ((¬∃ d, M.Member (stream chunks) d) ∨ o.file.short = true → o.callback = .error)

/-! ## What is written -/

variable {I} {w} {file : TempFile} {data : List UInt8} {sink : Sink I} {flags : Flush}

/-- A write that returns the size of a buffer has written it. -/
theorem TempFile.write_of_toSize (hlen : data.length ≤ 4096)
    (h : toSize (file.write w data).1 = data.length) :
    (file.write w data).2.bytes = file.bytes ++ data ∧
      (file.write w data).2.short = file.short := by
  have hn : data.length ≤ (w file.calls).toNat := by
    simp only [write, toSize] at h
    split at h <;> omega
  refine ⟨?_, ?_⟩
  · simp only [write, Nat.min_eq_right hn, List.take_length]
  · simp only [write, Nat.min_eq_right hn, Nat.lt_irrefl, decide_false, Bool.or_false]

theorem TempFile.toSize_write (hw : (4096 : Int) ≤ w file.calls) (hlen : data.length ≤ 4096) :
    toSize (file.write w data).1 = data.length := by
  have hn : min (w file.calls).toNat data.length = data.length := Nat.min_eq_right (by omega)
  simp only [write, toSize, hn]
  rw [if_neg (by omega)]
  omega

theorem TempFile.write_nil (file : TempFile) (w : Writes) :
    (file.write w []).2.bytes = file.bytes ∧ (file.write w []).2.short = file.short := by
  refine ⟨?_, ?_⟩
  · simp only [write, List.take_nil, List.append_nil]
  · simp only [write, List.length_nil, Nat.not_lt_zero, decide_false, Bool.or_false]

/-! ## The loop -/

theorem inflateLoop_eq (sink : Sink I) (data : List UInt8) (flags : Flush) :
    inflateLoop I w sink data flags =
      let c := I.inflate sink.zs data 4096 flags
      let r := sink.file.write w c.output
      if toSize r.1 ≠ c.output.length then (false, ⟨c.state, r.2⟩)
      else if 4096 - c.output.length = 0 then
        inflateLoop I w ⟨c.state, r.2⟩ (data.drop c.consumed) flags
      else (true, ⟨c.state, r.2⟩) := by
  rw [inflateLoop]
  exact if_neg (I.ret_ne_streamError _ _ _ _)

/-- The induction along the loop: it goes on with what a full buffer leaves. -/
theorem inflateLoop_induct (w : Writes) (flags : Flush) {P : Sink I → List UInt8 → Prop}
    (step : ∀ sink data,
      ((I.inflate sink.zs data 4096 flags).output.length = 4096 →
        P ⟨(I.inflate sink.zs data 4096 flags).state,
            (sink.file.write w (I.inflate sink.zs data 4096 flags).output).2⟩
          (data.drop (I.inflate sink.zs data 4096 flags).consumed)) →
      P sink data) (sink : Sink I) (data : List UInt8) : P sink data := by
  induction h : I.pending sink.zs data using Nat.strong_induction_on generalizing sink data with
  | _ n ih =>
    apply step
    intro hfull
    refine ih _ ?_ _ _ rfl
    rw [← h]
    exact I.pending_inflate_lt (by omega)

/-- If there is always place in the file, the loop succeeds. -/
theorem inflateLoop_of_room (hw : ∀ i, (4096 : Int) ≤ w i) (sink : Sink I) (data : List UInt8) :
    (inflateLoop I w sink data flags).1 = true := by
  induction sink, data using inflateLoop_induct w flags with
  | step sink data ih =>
    have hle := I.output_le sink.zs data 4096 flags
    rw [inflateLoop_eq]
    dsimp only
    rw [if_neg (not_not.mpr (TempFile.toSize_write (hw _) hle))]
    split
    · next hfull => exact ih (by omega)
    · rfl

/-- The loop is to decode `q`: the input that is left completes it, and the file holds what was put
out. -/
structure Feeding (q : List UInt8) (sink : Sink I) (data : List UInt8) : Prop where
  totalIn : I.totalIn sink.zs ++ data = q
  bytes : sink.file.bytes = I.totalOut sink.zs
  short : sink.file.short = false

/-- zlib has taken `q`, and the file holds its output. -/
structure Fed (q : List UInt8) (sink : Sink I) : Prop where
  totalIn : I.totalIn sink.zs = q
  totalOut : I.totalOut sink.zs = (M.decode q).out
  bytes : sink.file.bytes = I.totalOut sink.zs
  short : sink.file.short = false

theorem Fed.feeding {q : List UInt8} (h : Fed q sink) (data : List UInt8) :
    Feeding (q ++ data) sink data where
  totalIn := congrArg (· ++ data) h.totalIn
  bytes := h.bytes
  short := h.short

/-- A call of zlib whose output is written. -/
theorem Feeding.step {q : List UInt8} (h : Feeding q sink data)
    (hsize : toSize (sink.file.write w (I.inflate sink.zs data 4096 flags).output).1 =
      (I.inflate sink.zs data 4096 flags).output.length) :
    Feeding q ⟨(I.inflate sink.zs data 4096 flags).state,
        (sink.file.write w (I.inflate sink.zs data 4096 flags).output).2⟩
      (data.drop (I.inflate sink.zs data 4096 flags).consumed) := by
  obtain ⟨hbytes, hshort⟩ := TempFile.write_of_toSize (I.output_le _ _ _ _) hsize
  constructor
  · rw [I.totalIn_append_drop]
    exact h.totalIn
  · rw [hbytes, h.bytes, I.totalOut_inflate]
  · rw [hshort]
    exact h.short

/-- A call that leaves some of the buffer has decoded everything. -/
theorem Feeding.drained {q : List UInt8} (h : Feeding q sink data) (flags : Flush)
    (hused : (M.decode q).used = q.length) (hstatus : (M.decode q).status ≠ .corrupt)
    (hroom : (I.inflate sink.zs data 4096 flags).output.length < 4096) :
    I.totalIn (I.inflate sink.zs data 4096 flags).state = q ∧
      I.totalOut (I.inflate sink.zs data 4096 flags).state = (M.decode q).out := by
  rw [← h.totalIn] at hstatus
  obtain ⟨hout, hin⟩ := I.drained sink.zs data 4096 flags hroom hstatus
  rw [h.totalIn] at hout hin
  refine ⟨?_, hout⟩
  have hprefix : I.totalIn (I.inflate sink.zs data 4096 flags).state <+: q := by
    rw [← h.totalIn, ← I.totalIn_append_drop sink.zs data 4096 flags]
    exact List.prefix_append _ _
  exact hprefix.eq_of_length (hin.trans hused)

/-- **The loop decodes its input**: if it succeeds, zlib has taken all of it and the file holds the
output. -/
theorem Feeding.inflateLoop {q : List UInt8} (hused : (M.decode q).used = q.length)
    (hstatus : (M.decode q).status ≠ .corrupt) (h : Feeding q sink data)
    (hok : (inflateLoop I w sink data flags).1 = true) :
    Fed q (inflateLoop I w sink data flags).2 := by
  induction sink, data using inflateLoop_induct w flags with
  | step sink data ih =>
    rw [inflateLoop_eq] at hok ⊢
    dsimp only at hok ⊢
    split at hok
    · exact nomatch hok
    next hsize =>
    have hnext := h.step (not_not.mp hsize)
    rw [if_neg hsize]
    split at hok
    next hfull =>
      have hle := I.output_le sink.zs data 4096 flags
      rw [if_pos hfull]
      exact ih (by omega) hnext hok
    next hroom =>
      obtain ⟨hin, hout⟩ := h.drained flags hused hstatus (by omega)
      rw [if_neg hroom]
      exact ⟨hin, hout, hnext.bytes, hnext.short⟩

/-- Without new input there is nothing to write, and it does not matter what `write` returns. -/
theorem Fed.inflateLoop_nil {q : List UInt8} (h : Fed q sink)
    (hused : (M.decode q).used = q.length) (hstatus : (M.decode q).status ≠ .corrupt) :
    Fed q (inflateLoop I w sink [] flags).2 := by
  have hfeed : Feeding q sink [] := by simpa using h.feeding []
  have hin : I.totalIn (I.inflate sink.zs [] 4096 flags).state = q := by
    rw [I.totalIn_inflate, List.take_nil, List.append_nil, h.totalIn]
  have houtput : (I.inflate sink.zs [] 4096 flags).output = [] := by
    have hprefix := (I.totalOut_prefix (I.inflate sink.zs [] 4096 flags).state).length_le
    rw [hin, I.totalOut_inflate, h.totalOut, List.length_append] at hprefix
    exact List.eq_nil_of_length_eq_zero (by omega)
  have hroom : (I.inflate sink.zs [] 4096 flags).output.length < 4096 := by
    rw [houtput]
    decide
  obtain ⟨-, hout⟩ := hfeed.drained flags hused hstatus hroom
  obtain ⟨hbytes, hshort⟩ := TempFile.write_nil sink.file w
  have hfed : Fed q ⟨(I.inflate sink.zs [] 4096 flags).state,
      (sink.file.write w (I.inflate sink.zs [] 4096 flags).output).2⟩ := by
    refine ⟨hin, hout, ?_, ?_⟩
    · rw [houtput, hbytes, hout, h.bytes, h.totalOut]
    · rw [houtput, hshort]
      exact h.short
  rw [inflateLoop_eq]
  dsimp only
  split
  · exact hfed
  split
  next hfull => rw [houtput] at hfull; exact nomatch hfull
  · exact hfed

/-! ## The whole download -/

theorem Chunk.take_length (c : Chunk) : c.data.take (c.data.length % 2 ^ 32) = c.data := by
  have hle := c.length_le
  rw [Nat.mod_eq_of_lt (by omega), List.take_length]

/-- A chunk that zlib and the file have taken. -/
theorem Fed.outputFunc {q : List UInt8} (h : Fed q sink) (c : Chunk) {rest d : List UInt8}
    (hmember : M.Member (q ++ (c.data ++ rest)) d)
    (hsize : (outputFunc I w true sink c.data).1 = c.data.length) :
    Fed (q ++ c.data) (outputFunc I w true sink c.data).2 := by
  rw [← List.append_assoc] at hmember
  obtain ⟨hused, hstatus⟩ := hmember.of_append
  simp only [Download.outputFunc, curlDoZlibInflate, c.take_length, if_true] at hsize ⊢
  by_cases hempty : c.data = []
  · rw [hempty, List.append_nil] at hused hstatus ⊢
    exact h.inflateLoop_nil hused hstatus
  · split at hsize
    next hok => exact (h.feeding c.data).inflateLoop hused hstatus hok
    next => exact absurd (List.length_eq_zero_iff.mp hsize.symm) hempty

theorem Fed.receive {q : List UInt8} (h : Fed q sink) (cs : List Chunk) {d : List UInt8}
    (hmember : M.Member (q ++ stream cs) d) (hreceived : (receive I w true sink cs).1 = true) :
    Fed (q ++ stream cs) (receive I w true sink cs).2 := by
  induction cs generalizing q sink with
  | nil =>
    rw [stream, List.flatMap_nil, List.append_nil]
    exact h
  | cons c cs ih =>
    have hstream : stream (c :: cs) = c.data ++ stream cs := List.flatMap_cons
    rw [hstream] at hmember ⊢
    rw [Download.receive] at hreceived ⊢
    split at hreceived
    next hsize =>
      rw [if_pos hsize, ← List.append_assoc]
      apply ih (h.outputFunc c hmember hsize) _ hreceived
      rw [List.append_assoc]
      exact hmember
    next => exact nomatch hreceived

theorem receive_of_room (hw : ∀ i, (4096 : Int) ≤ w i) (sink : Sink I) (cs : List Chunk) :
    (receive I w true sink cs).1 = true := by
  induction cs generalizing sink with
  | nil => rfl
  | cons c cs ih =>
    have hok : (curlDoZlibInflate I w sink c.data .noFlush).1 = true := inflateLoop_of_room hw _ _
    have hsize : (outputFunc I w true sink c.data).1 = c.data.length := by
      simp only [outputFunc, hok, if_true]
    rw [receive, if_pos hsize]
    exact ih _

theorem fed_init : Fed (M := M) [] ⟨I.init, .new⟩ where
  totalIn := I.totalIn_init
  totalOut := I.totalOut_init
  bytes := I.totalOut_init.symm
  short := rfl

variable {downloadurl gzippedurl : String} {errbuf : Nat → String} {chunks : List Chunk}

/-- The result of the last flush has no part in it. -/
theorem downloadFile_served (I : Inflate M) (w : Writes) (downloadurl gzippedurl : String)
    (errbuf : Nat → String) (chunks : List Chunk) :
    downloadFile I w false ⟨downloadurl, some gzippedurl⟩ (served chunks errbuf) =
      let r := receive I w true ⟨I.init, .new⟩ chunks
      let file := (curlDoZlibInflate I w r.2 [] .finish).2.file
      if r.1 then ⟨file, true, [], .success⟩
      else ⟨file, false, [requestError gzippedurl (errbuf CURLE_WRITE_ERROR) CURLE_WRITE_ERROR],
        .error⟩ := by
  dsimp only
  rw [downloadFile]
  split
  next hdry => exact nomatch hdry
  cases h : (receive I w true ⟨I.init, .new⟩ chunks).1 with
  | true => simp [served, h, respond]
  | false => simp [served, h, CURLE_OK, CURLE_WRITE_ERROR]

/-- A download of a single member is right when it succeeds. -/
theorem fed_downloadFile {d : List UInt8} (hmember : M.Member (stream chunks) d)
    (hreceived : (receive I w true ⟨I.init, .new⟩ chunks).1 = true) :
    Fed (stream chunks)
      (curlDoZlibInflate I w (receive I w true ⟨I.init, .new⟩ chunks).2 [] .finish).2 := by
  have hfed : Fed (stream chunks) (receive I w true ⟨I.init, .new⟩ chunks).2 :=
    fed_init.receive chunks hmember hreceived
  have hwhole : M.Member (stream chunks ++ []) d := by
    rw [List.append_nil]
    exact hmember
  obtain ⟨hused, hstatus⟩ := hwhole.of_append
  exact hfed.inflateLoop_nil hused hstatus

/-- With enough place in the file every stream is a success. -/
theorem AllOrNothing.member (h : AllOrNothing I downloadurl gzippedurl errbuf chunks) :
    ∃ d, M.Member (stream chunks) d := by
  have hserved := downloadFile_served I (fun _ => 4096) downloadurl gzippedurl errbuf chunks
  dsimp only at hserved
  rw [if_pos (receive_of_room (fun _ => Int.le_refl _) _ chunks)] at hserved
  exact ⟨_, (h _ _ hserved).1 rfl⟩

/-- The download is all or nothing exactly when there is one member in the stream and nothing
else. -/
theorem allOrNothing_iff (I : Inflate M) (downloadurl gzippedurl : String) (errbuf : Nat → String)
    (chunks : List Chunk) :
    AllOrNothing I downloadurl gzippedurl errbuf chunks ↔ ∃ d, M.Member (stream chunks) d := by
  refine ⟨AllOrNothing.member, ?_⟩
  rintro ⟨d, hmember⟩ w o rfl
  rw [downloadFile_served]
  dsimp only
  cases hreceived : (receive I w true ⟨I.init, .new⟩ chunks).1 with
  | false => exact ⟨(fun h => nomatch h), fun _ => rfl⟩
  | true =>
    have hfed := fed_downloadFile hmember hreceived
    refine ⟨fun _ => ?_, ?_⟩
    · show M.Member _ (curlDoZlibInflate _ _ _ _ _).2.file.bytes
      rw [hfed.bytes, hfed.totalOut, hmember]
      exact hmember
    · rintro (hno | hshort)
      · exact absurd ⟨d, hmember⟩ hno
      · exact absurd (hfed.short.symm.trans hshort) Bool.false_ne_true

/-- A gzip member with a stored block for the letter `A`: header, block, checksum and length. -/
def storedA : List (UInt8 × List UInt8) :=
  [(0x1f, []), (0x8b, []), (0x08, []), (0x00, []), (0x00, []), (0x00, []), (0x00, []), (0x00, []),
    (0x00, []), (0xff, []),
    (0x01, []), (0x01, []), (0x00, []), (0xfe, []), (0xff, []), (0x41, [0x41]),
    (0x8b, []), (0x9e, []), (0xd9, []), (0xd3, []),
    (0x01, []), (0x00, []), (0x00, []), (0x00, [])]

example : (Machine.single storedA).Member (storedA.map Prod.fst) [0x41] := rfl

/-- The last byte of the member is missing. -/
theorem not_allOrNothing_truncated :
    ¬AllOrNothing (Inflate.reference (Machine.single storedA)) "apk"
      "apk.gz" (fun _ => "")
      [⟨(storedA.map Prod.fst).dropLast, by decide⟩] := by
  intro h
  obtain ⟨d, hd⟩ := h.member
  have hmore : ((Machine.single storedA).decode (stream
      [⟨(storedA.map Prod.fst).dropLast, by decide⟩])).status = .more := rfl
  rw [hd] at hmore
  exact nomatch hmore

end McpeLauncher.Download

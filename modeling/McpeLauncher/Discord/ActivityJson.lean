import McpeLauncher.Discord.Activity

/-!
# The JSON text of an activity

What `setActivity` writes is the JSON text of the activity's value, for any texts and any choice of
members and buttons.
-/

namespace McpeLauncher.Discord

open JsonText (Text Value Denotes Phrase Plain memberText renderMembers renderItems render)

section Pieces

variable {k : String} {s : Text}

theorem flatMap_escapeByte_encodeChar (c : Char) :
    (String.utf8EncodeChar c).flatMap escapeByte = Utf8.encode (JsonText.escapeChar c) := by
  by_cases hc : c.toNat < 128
  · have hall : ∀ n < 128,
        escapeByte (UInt8.ofNat n) = Utf8.encode (JsonText.escapeChar (Char.ofNat n)) := by decide
    have hchar := hall c.toNat hc
    rw [Char.ofNat_toNat] at hchar
    rw [Utf8.encodeChar_of_lt hc, ← hchar, List.flatMap_singleton]
  · have hplain : Plain c := by
      refine ⟨by omega, ?_, ?_⟩ <;> rintro rfl <;> exact hc (by decide)
    have hbyte : ∀ b : BitVec 8, Utf8.isAscii ⟨b⟩ = false → escapeByte ⟨b⟩ = [⟨b⟩] := by decide
    have hbytes : ∀ b ∈ String.utf8EncodeChar c, escapeByte b = [b] := fun b hb =>
      hbyte b.toBitVec (Utf8.not_isAscii_of_mem (by omega) hb)
    rw [JsonText.escapeChar_of_plain hplain, Utf8.encode_cons, Utf8.encode_nil, List.append_nil,
      List.flatMap_congr hbytes]
    exact List.flatMap_singleton' _

theorem jsonEscape_encode (s : Text) : jsonEscape (Utf8.encode s) = Utf8.encode (JsonText.escape s) := by
  induction s with
  | nil => rfl
  | cons c s ih =>
    rw [Utf8.encode_cons, jsonEscape, List.flatMap_append, flatMap_escapeByte_encodeChar]
    exact (congrArg _ ih).trans (Utf8.encode_append _ _).symm

theorem encode_intText (n : Int) : Utf8.encode (JsonText.intText n) = Decimal.intText n := by
  refine Utf8.encode_map_ofNat fun b hb => ?_
  have hall : ∀ b : BitVec 8, (UInt8.ofBitVec b = 45 ∨ Decimal.isDigit ⟨b⟩ = true) →
      (UInt8.ofBitVec b).toNat < 128 := by decide
  exact hall b.toBitVec (Decimal.mem_intText hb)

theorem encode_eq_nil_iff : Utf8.encode s = [] ↔ s = [] :=
  ⟨fun h => by_contra fun hne => Utf8.encode_ne_nil hne h, fun h => h ▸ rfl⟩

/-- A name as it is written. -/
def PlainName (k : String) : Prop := ∀ c ∈ k.toList, Plain c

instance (k : String) : Decidable (PlainName k) :=
  List.decidableBAll Plain k.toList

theorem stringMember_encode (hk : PlainName k) (s : Text) :
    stringMember k (Utf8.encode s) = Utf8.encode (memberText (k.toList, .string s)) := by
  rw [stringMember, jsonEscape_encode, memberText, JsonText.quoted, JsonText.escape_of_plain hk,
    render, JsonText.quoted]
  simp [lit]

theorem textMember_encode (hk : PlainName k) (s : Text) :
    (if Utf8.encode s ≠ [] then stringMember k (Utf8.encode s) ++ lit "," else []) =
      Utf8.encode ((textMember k s).flatMap fun m => memberText m ++ [',']) := by
  by_cases hs : s = []
  · simp [hs, textMember]
  · have hne : Utf8.encode s ≠ [] := Utf8.encode_ne_nil hs
    rw [if_pos hne, stringMember_encode hk, textMember, if_neg hs, List.flatMap_singleton,
      Utf8.encode_append]
    rfl

/-- `put` adds a member for a text that is not empty. -/
theorem putAsset_encode (hk : PlainName k) (ms : List (Text × Value)) (s : Text) :
    putAsset (ms.isEmpty, Utf8.encode (renderMembers ms)) k (Utf8.encode s) =
      ((ms ++ textMember k s).isEmpty, Utf8.encode (renderMembers (ms ++ textMember k s))) := by
  by_cases hs : s = []
  · simp [hs, textMember, putAsset]
  · have hne : Utf8.encode s ≠ [] := Utf8.encode_ne_nil hs
    rw [putAsset, if_neg hne, stringMember_encode hk, textMember, if_neg hs,
      JsonText.renderMembers_concat, Utf8.encode_append]
    cases ms with
    | nil => rfl
    | cons m ms =>
      rw [if_neg (List.cons_ne_nil m ms), Utf8.encode_append]
      rfl

theorem assetsText_encode (a : Activity Text) :
    assetsText a.encode = Utf8.encode (renderMembers a.assets) := by
  have hstart : (true, []) = (([] : List (Text × Value)).isEmpty, Utf8.encode (renderMembers [])) :=
    rfl
  rw [assetsText, hstart]
  simp only [Activity.encode]
  rw [putAsset_encode (by decide), putAsset_encode (by decide), putAsset_encode (by decide),
    putAsset_encode (by decide)]
  rfl

theorem button_encode (b : Button Text) :
    lit "\x7b" ++ stringMember "label" (Utf8.encode b.label) ++ lit "," ++
      stringMember "url" (Utf8.encode b.url) ++ lit "\x7d" = Utf8.encode (render b.toValue) := by
  rw [stringMember_encode (by decide), stringMember_encode (by decide), Button.toValue, render,
    JsonText.renderMembers_cons _ (by simp), JsonText.renderMembers_singleton]
  simp [lit]

/-- The loop writes the buttons that are shown, up to the second. -/
theorem buttonsLoop_encode (bs : List (Button Text)) (vs : List Value) :
    buttonsLoop vs.length (Utf8.encode (renderItems vs))
        (bs.map fun b => ⟨Utf8.encode b.label, Utf8.encode b.url⟩) =
      Utf8.encode (renderItems (vs ++ (((bs.filter fun b => b.label ≠ [] ∧ b.url ≠ []).take
        (2 - vs.length)).map Button.toValue))) := by
  induction bs generalizing vs with
  | nil => simp [buttonsLoop]
  | cons b bs ih =>
    rw [List.map_cons, buttonsLoop]
    simp only [encode_eq_nil_iff]
    by_cases hempty : b.label = [] ∨ b.url = []
    · rw [if_pos hempty, ih, List.filter_cons_of_neg (by simpa [or_iff_not_imp_left] using hempty)]
    · rw [if_neg hempty, List.filter_cons_of_pos (by simpa [not_or] using hempty)]
      by_cases htwo : 2 ≤ vs.length
      · rw [if_pos htwo, Nat.sub_eq_zero_of_le htwo]
        simp
      · have htake : 2 - vs.length = (2 - (vs ++ [b.toValue]).length) + 1 := by
          rw [List.length_append, List.length_singleton]
          omega
        have hitems : (if 0 < vs.length then Utf8.encode (renderItems vs) ++ lit ","
              else Utf8.encode (renderItems vs)) ++ lit "\x7b" ++
              stringMember "label" (Utf8.encode b.label) ++ lit "," ++
              stringMember "url" (Utf8.encode b.url) ++ lit "\x7d" =
            Utf8.encode (renderItems (vs ++ [b.toValue])) := by
          rw [JsonText.renderItems_concat, Utf8.encode_append, ← button_encode]
          cases vs with
          | nil => simp [renderItems]
          | cons v vs => simp [lit]
        have hlength : vs.length + 1 = (vs ++ [b.toValue]).length := by simp
        rw [if_neg htwo, hitems, hlength, ih, htake, List.take_succ_cons, List.map_cons,
          List.append_assoc]
        rfl

end Pieces

/-! ## The whole text -/

theorem buttonsText_encode (bs : List (Button Text)) :
    buttonsLoop 0 [] (bs.map fun b => ⟨Utf8.encode b.label, Utf8.encode b.url⟩) =
      Utf8.encode (renderItems ((shownButtons bs).map Button.toValue)) :=
  buttonsLoop_encode bs []

section Members

variable {m : Text × Value} {bytes : Bytes} (a : Activity Text)

/-- A member that is there only sometimes, with the comma behind it. -/
theorem optional_encode (c : Prop) [Decidable c] (h : bytes = Utf8.encode (memberText m ++ [','])) :
    (if c then bytes else []) =
      Utf8.encode ((if c then [m] else []).flatMap fun m => memberText m ++ [',']) := by
  split
  · rw [h, List.flatMap_singleton]
  · rfl

theorem quoted_name {k : String} (hk : PlainName k) :
    JsonText.quoted k.toList = '"' :: k.toList ++ ['"'] := by
  rw [JsonText.quoted, JsonText.escape_of_plain hk]

theorem memberText_number {k : String} (hk : PlainName k) (n : Int) :
    memberText (k.toList, number n) = '"' :: k.toList ++ '"' :: ':' :: JsonText.intText n := by
  simp [memberText, quoted_name hk, number, render, JsonText.numberText]

theorem memberText_object {k : String} (hk : PlainName k) (ms : List (Text × Value)) :
    memberText (k.toList, .object ms) =
      '"' :: k.toList ++ '"' :: ':' :: '{' :: renderMembers ms ++ ['}'] := by
  simp [memberText, quoted_name hk, render]

theorem memberText_array {k : String} (hk : PlainName k) (vs : List Value) :
    memberText (k.toList, .array vs) =
      '"' :: k.toList ++ '"' :: ':' :: '[' :: renderItems vs ++ [']'] := by
  simp [memberText, quoted_name hk, render]

theorem timestamps_encode (n : Int) :
    lit "\"timestamps\":\x7b\"start\":" ++ Decimal.intText n ++ lit "\x7d," =
      Utf8.encode (memberText ("timestamps".toList, .object [("start".toList, number n)]) ++ [',']) := by
  rw [memberText_object (by decide), JsonText.renderMembers_singleton, memberText_number (by decide)]
  simp [lit, ← encode_intText]

theorem assets_encode :
    lit "\"assets\":\x7b" ++ assetsText a.encode ++ lit "\x7d," =
      Utf8.encode (memberText ("assets".toList, .object a.assets) ++ [',']) := by
  rw [memberText_object (by decide), assetsText_encode]
  simp [lit]

theorem renderItems_pair (m n : Int) :
    renderItems [number m, number n] = JsonText.intText m ++ ',' :: JsonText.intText n := by
  simp [renderItems, number, render, JsonText.numberText]

theorem toInt_partySize (n : Int32) : (if n < 0 then 0 else n).toInt = max 0 n.toInt := by
  split
  · next h =>
    have hneg : n.toInt < 0 := Int32.lt_iff_toInt_lt.mp h
    exact (max_eq_left hneg.le).symm
  · next h =>
    have hpos : ¬n.toInt < 0 := fun hlt => h (Int32.lt_iff_toInt_lt.mpr hlt)
    exact (max_eq_right (not_lt.mp hpos)).symm

theorem party_encode (id : Text) (size : Int32) (limit : Int) :
    lit "\"party\":\x7b" ++ stringMember "id" (Utf8.encode id) ++ lit ",\"size\":[" ++
      Decimal.intText (if size < 0 then 0 else size).toInt ++ lit "," ++ Decimal.intText limit ++
      lit "]\x7d," =
      Utf8.encode (memberText ("party".toList, .object [("id".toList, .string id),
        ("size".toList, .array [number (max 0 size.toInt), number limit])]) ++ [',']) := by
  rw [toInt_partySize, memberText_object (by decide), JsonText.renderMembers_cons _ (by simp),
    JsonText.renderMembers_singleton, memberText_array (by decide), renderItems_pair,
    stringMember_encode (by decide)]
  simp [lit, ← encode_intText]

theorem secrets_encode (join : Text) :
    lit "\"secrets\":\x7b" ++ stringMember "join" (Utf8.encode join) ++ lit "\x7d," =
      Utf8.encode (memberText ("secrets".toList, .object [("join".toList, .string join)]) ++
        [',']) := by
  rw [memberText_object (by decide), JsonText.renderMembers_singleton, stringMember_encode (by decide)]
  simp [lit]

theorem buttons_encode (bs : List (Button Text)) :
    lit "\"buttons\":[" ++
      buttonsLoop 0 [] (bs.map fun b => ⟨Utf8.encode b.label, Utf8.encode b.url⟩) ++ lit "]," =
      Utf8.encode (memberText ("buttons".toList, .array ((shownButtons bs).map Button.toValue)) ++
        [',']) := by
  rw [memberText_array (by decide), buttonsText_encode]
  simp [lit]

theorem textMember_eq_nil_iff {k : String} {s : Text} : textMember k s = [] ↔ s = [] := by
  rw [textMember, ite_eq_left_iff]
  exact ⟨fun h => by_contra fun hs => absurd (h hs) (List.cons_ne_nil _ _), fun h hs => absurd h hs⟩

theorem assets_eq_nil_iff : a.assets = [] ↔
    a.largeImage = [] ∧ a.largeText = [] ∧ a.smallImage = [] ∧ a.smallText = [] := by
  simp only [Activity.assets, List.append_eq_nil_iff, textMember_eq_nil_iff, and_assoc]

/-- The members that are there only sometimes, with the comma behind each. -/
theorem optionalMembers_encode :
    activityText a.encode =
      lit "\x7b" ++ Utf8.encode (a.optionalMembers.flatMap fun m => memberText m ++ [',']) ++
        lit "\"instance\":true,\"type\":0\x7d" := by
  have hstate : (if a.encode.state ≠ [] then stringMember "state" a.encode.state ++ lit ","
      else []) = _ := textMember_encode (by decide) a.state
  have hdetails : (if a.encode.details ≠ [] then
      stringMember "details" a.encode.details ++ lit "," else []) = _ :=
    textMember_encode (by decide) a.details
  have htimestamps := optional_encode (0 < a.startMs) (timestamps_encode a.startMs.toInt)
  have hasAssets : (a.encode.largeImage ≠ [] ∨ a.encode.largeText ≠ [] ∨
      a.encode.smallImage ≠ [] ∨ a.encode.smallText ≠ []) ↔ a.assets ≠ [] := by
    simp only [ne_eq, assets_eq_nil_iff, not_and_or]
    exact or_congr (not_congr encode_eq_nil_iff) (or_congr (not_congr encode_eq_nil_iff)
      (or_congr (not_congr encode_eq_nil_iff) (not_congr encode_eq_nil_iff)))
  have hassets : (if a.encode.largeImage ≠ [] ∨ a.encode.largeText ≠ [] ∨
      a.encode.smallImage ≠ [] ∨ a.encode.smallText ≠ [] then
        lit "\"assets\":\x7b" ++ assetsText a.encode ++ lit "\x7d," else []) = _ :=
    (if_congr hasAssets rfl rfl).trans (optional_encode (a.assets ≠ []) (assets_encode a))
  have hparty : (if a.encode.partyId ≠ [] ∧ 0 < a.encode.partyMax then
      lit "\"party\":\x7b" ++ stringMember "id" a.encode.partyId ++ lit ",\"size\":[" ++
        Decimal.intText (if a.encode.partySize < 0 then 0 else a.encode.partySize).toInt ++
        lit "," ++ Decimal.intText a.encode.partyMax.toInt ++ lit "]\x7d," else []) = _ :=
    (if_congr (and_congr_left' (not_congr encode_eq_nil_iff)) rfl rfl).trans
      (optional_encode (a.partyId ≠ [] ∧ 0 < a.partyMax)
        (party_encode a.partyId a.partySize a.partyMax.toInt))
  have hsecrets : (if a.encode.joinSecret ≠ [] then
      lit "\"secrets\":\x7b" ++ stringMember "join" a.encode.joinSecret ++ lit "\x7d," else []) = _ :=
    (if_congr (not_congr encode_eq_nil_iff) rfl rfl).trans
      (optional_encode (a.joinSecret ≠ []) (secrets_encode a.joinSecret))
  have hbuttons : (if a.encode.buttons ≠ [] then
      lit "\"buttons\":[" ++ buttonsLoop 0 [] a.encode.buttons ++ lit "]," else []) = _ :=
    (if_congr (not_congr List.map_eq_nil_iff) rfl rfl).trans
      (optional_encode (a.buttons ≠ []) (buttons_encode a.buttons))
  rw [activityText, hstate, hdetails, hassets, hparty, hsecrets, hbuttons]
  simp only [Activity.optionalMembers, List.flatMap_append, Utf8.encode_append, List.append_assoc,
    ← htimestamps]
  rfl

theorem activityText_encode : activityText a.encode = Utf8.encode (render a.toValue) := by
  have hlast : renderMembers [("instance".toList, .bool true), ("type".toList, number 0)] =
      "\"instance\":true,\"type\":0".toList := by decide
  rw [optionalMembers_encode, Activity.toValue, render, JsonText.renderMembers_append _ (by simp),
    hlast]
  simp [lit]

end Members

theorem memberText_string {k : String} (hk : PlainName k) {s : Text} (hs : ∀ c ∈ s, Plain c) :
    memberText (k.toList, .string s) =
      '"' :: k.toList ++ '"' :: ':' :: '"' :: s ++ ['"'] := by
  rw [memberText, quoted_name hk, render, JsonText.quoted, JsonText.escape_of_plain hs]
  simp

theorem nonceText_encode (nonceCounter : UInt32) :
    nonceText nonceCounter =
      Utf8.encode ("mcpe-".toList ++ JsonText.intText nonceCounter.toNat) := by
  have hpos : ¬(nonceCounter.toNat : Int) < 0 := by omega
  rw [Utf8.encode_append, encode_intText, Decimal.intText, if_neg hpos, Int.natAbs_natCast]
  rfl

theorem plain_nonce (nonceCounter : UInt32) :
    ∀ c ∈ "mcpe-".toList ++ JsonText.intText nonceCounter.toNat, Plain c := by
  intro c hc
  obtain hc | hc := List.mem_append.mp hc
  · have hname : PlainName "mcpe-" := by decide
    exact hname c hc
  · exact JsonText.plain_of_mem_intText hc

theorem activityPayload_encode (pid : Int) (nonceCounter : UInt32) (a : Activity Text) :
    activityPayload pid (nonceText nonceCounter) a.encode =
      Utf8.encode (render (payloadValue pid nonceCounter a)) := by
  have hactivity : memberText ("activity".toList, a.toValue) =
      "\"activity\":".toList ++ render a.toValue := by
    rw [memberText, quoted_name (by decide)]
    simp
  have hcmd : memberText ("cmd".toList, .string "SET_ACTIVITY".toList) =
      "\"cmd\":\"SET_ACTIVITY\"".toList := by
    have hplain : PlainName "SET_ACTIVITY" := by decide
    rw [memberText_string (by decide) hplain]
    decide
  rw [activityPayload, activityText_encode, nonceText_encode, payloadValue, render,
    JsonText.renderMembers_cons _ (by simp), JsonText.renderMembers_cons _ (by simp),
    JsonText.renderMembers_singleton, memberText_object (by decide),
    JsonText.renderMembers_cons _ (by simp), JsonText.renderMembers_singleton,
    memberText_number (by decide), hactivity, hcmd,
    memberText_string (by decide) (plain_nonce nonceCounter)]
  simp [lit, ← encode_intText]

/-- What is sent is the JSON text of the activity's value, and it is parsed to that value. -/
theorem setActivity_payload (c : ActivityClient) (pid : Int) (a : Activity Text) :
    ∃ text, Denotes (.value (payloadValue pid (c.nonceCounter + 1) a)) text ∧
      JsonText.parse text = some (payloadValue pid (c.nonceCounter + 1) a) ∧
      c.setActivity pid a.encode =
        if c.socket.connected then
          let sent := c.socket.sendFrame ⟨.frame, Utf8.encode text⟩
          (sent.1, ⟨sent.2, [], c.nonceCounter + 1, nonceText (c.nonceCounter + 1)⟩)
        else (false, c) := by
  refine ⟨_, JsonText.denotes_render _, JsonText.parse_render _, ?_⟩
  rw [ActivityClient.setActivity]
  simp only [activityPayload_encode]

end McpeLauncher.Discord

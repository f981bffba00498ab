/-
`interface/FramingIface.c`: messages over a stream of bytes, each behind its length in four
bytes. The stream comes in chunks that have nothing to do with the frames: the bytes of a
header are collected one by one, and a frame that has not come in whole is kept, in parts,
behind its header, until the rest is there; then it is put together and run through again.

Whatever the state of the interface is, it stands for the bytes of the frame that has been
begun (`Holds`), and a chunk is read as if these bytes stood before it (`receiveMessage_holds`).
-/
import Hyperboria.Message

namespace Hyperboria

open List

open Message (bigEndian32)

/-- `struct FramingIface_pvt`; `header` and `headerIndex` are the bytes of the header so far. -/
structure FramingIface where
  maxMessageSize : BitVec 32
  bytesRemaining : Nat
  /-- the last part first -/
  frameParts : List (List UInt8)
  header : List UInt8
deriving DecidableEq

namespace FramingIface

def new (maxMsgSize : BitVec 32) : FramingIface :=
  { maxMessageSize := maxMsgSize, bytesRemaining := 0, frameParts := [], header := [] }

def mergeMessage (fi : FramingIface) (last : List UInt8) : List UInt8 :=
  fi.frameParts.foldl (fun out part => part ++ out) last

/-- The loop that collects the header: the header, and what is left of the message. -/
def takeHeader (header : List UInt8) : List UInt8 → List UInt8 × List UInt8
  | [] => (header, [])
  | byte :: bytes => if header.length < 4 then takeHeader (header ++ [byte]) bytes else (header, byte :: bytes)

/-- `Endian_bigEndianToHost32(fi->header.length_be)`. -/
def lengthOf (header : List UInt8) : Nat := header.foldl (fun n byte => n * 256 + byte.toNat) 0

/-- The loop of `receiveMessage`: the messages it hands to `messageIf`. A round takes a byte at least. -/
def receiveFrames (fi : FramingIface) (msg : List UInt8) : Nat → Er (FramingIface × List (List UInt8))
  | 0 => .spin
  | rounds + 1 =>
    let (header, msg) := takeHeader fi.header msg
    if header.length < 4 then .ret ({ fi with header }, [])
    else
      let bytesRemaining := lengthOf header
      -- oversize
      if bytesRemaining > fi.maxMessageSize.toNat then .ret ({ fi with header := [], bytesRemaining }, [])
      else if bytesRemaining = msg.length then .ret ({ fi with header := [], bytesRemaining := 0 }, [msg])
      else if bytesRemaining < msg.length then do
        let (fi, out) ← receiveFrames { fi with header := [], bytesRemaining := 0 } (msg.drop bytesRemaining) rounds
        .ret (fi, msg.take bytesRemaining :: out)
      else
        .ret ({ fi with
          header := [], bytesRemaining := bytesRemaining - msg.length, frameParts := [header ++ msg] }, [])

/-- `receiveMessage`: the messages it hands to `messageIf`. -/
def receiveMessage (fi : FramingIface) (msg : List UInt8) : Er (FramingIface × List (List UInt8)) :=
  -- oversize message
  if fi.bytesRemaining > fi.maxMessageSize.toNat then .ret (fi, [])
  else if fi.frameParts ≠ [] then
    if fi.bytesRemaining ≤ msg.length then do
      let wholeMessage := mergeMessage fi msg
      .assertTrue (fi.header = []) "fi->headerIndex == 0"
      -- run the message through again; there are no parts now
      receiveFrames { fi with bytesRemaining := 0, frameParts := [] } wholeMessage (wholeMessage.length + 1)
    else
      .ret ({ fi with bytesRemaining := fi.bytesRemaining - msg.length, frameParts := msg :: fi.frameParts }, [])
  else receiveFrames fi msg (msg.length + 1)

/-- `sendMessage`: the bytes it hands to `streamIf`. -/
def sendMessage (msg : Message) : Er (List UInt8) := do
  let msg ← msg.epush32be (BitVec.ofNat 32 msg.length)
  .ret msg.bytes

/-- The chunks of the stream, one after the other. -/
def receiveAll (fi : FramingIface) : List (List UInt8) → Er (FramingIface × List (List UInt8))
  | [] => .ret (fi, [])
  | chunk :: chunks => do
    let (fi, out) ← receiveMessage fi chunk
    let (fi, more) ← receiveAll fi chunks
    .ret (fi, out ++ more)

/-! ## Frames -/

/-- A message behind its length. -/
def frame (content : List UInt8) : List UInt8 := bigEndian32 (BitVec.ofNat 32 content.length) ++ content

/-- The stream that carries these messages. -/
def stream (contents : List (List UInt8)) : List UInt8 := (contents.map frame).flatten

@[simp] theorem stream_cons (content : List UInt8) (contents : List (List UInt8)) :
    stream (content :: contents) = frame content ++ stream contents := rfl

theorem length_bigEndian32 (dat : BitVec 32) : (bigEndian32 dat).length = 4 := rfl

theorem lengthOf_bigEndian32 (dat : BitVec 32) : lengthOf (bigEndian32 dat) = dat.toNat := by
  simp only [lengthOf, bigEndian32, foldl_cons, foldl_nil, UInt8.toNat_ofNat']
  omega

theorem sendMessage_eq {msg} {out} (h : sendMessage msg = .ret out) : out = frame msg.bytes := by
  obtain ⟨pushed, hpush, h⟩ := Er.bind_inv h
  obtain ⟨shifted, hshift, hpush⟩ := Er.bind_inv hpush
  cases h
  cases hpush
  rw [length_bigEndian32] at hshift
  by_cases hpad : 4 ≤ msg.padding
  · rw [Message.eshift_pos (k := 4) hpad] at hshift
    cases hshift
    have hlen : (msg.pad.take 4).reverse.length = 4 := by
      rw [length_reverse, length_take]
      exact Nat.min_eq_left hpad
    have hdrop : ((msg.pad.take 4).reverse ++ msg.bytes).drop 4 = msg.bytes := drop_left' hlen
    rw [length_bigEndian32, hdrop]
    rfl
  · unfold Message.eshift at hshift
    rw [if_pos (by omega)] at hshift
    cases hshift

theorem exists_append_of_le {xs ys zs ws : List UInt8} (h : xs ++ ys = zs ++ ws) (hle : zs.length ≤ xs.length) :
    ∃ ts, xs = zs ++ ts ∧ ts ++ ys = ws := by
  rcases append_eq_append_iff.mp h with ⟨ts, rfl, rfl⟩ | ⟨ts, rfl, rfl⟩
  · have hnil : ts = [] := by
      rw [length_append] at hle
      exact length_eq_zero_iff.mp (by omega)
    rw [hnil]
    exact ⟨[], by simp, rfl⟩
  · exact ⟨ts, rfl, rfl⟩

theorem takeHeader_short {header bytes} (h : header.length + bytes.length < 4) :
    takeHeader header bytes = (header ++ bytes, []) := by
  induction bytes generalizing header with
  | nil => rw [takeHeader, append_nil]
  | cons byte bytes ih =>
    rw [length_cons] at h
    rw [takeHeader, if_pos (by omega), ih (by rw [length_append, length_singleton]; omega),
      append_assoc, singleton_append]

variable {rest : List UInt8}

theorem takeHeader_full {header bytes whole} (hwhole : whole.length = 4) (hle : header.length ≤ 4)
    (h : header ++ bytes = whole ++ rest) : takeHeader header bytes = (whole, rest) := by
  induction bytes generalizing header with
  | nil =>
    rw [append_nil] at h
    have hlen := congrArg List.length h
    rw [length_append] at hlen
    have hrest : rest = [] := length_eq_zero_iff.mp (by omega)
    rw [takeHeader, h, hrest, append_nil]
  | cons byte bytes ih =>
    rw [takeHeader]
    split
    next hlt => exact ih (by rw [length_append, length_singleton]; omega) (by rw [append_assoc]; exact h)
    next hfull =>
      obtain ⟨rfl, rfl⟩ := append_inj h (by omega)
      rfl

/-! ## Cutting a stream -/

/-- The state of an interface that has got the first bytes of a frame, not all of it. -/
inductive Holds (fi : FramingIface) : List UInt8 → Prop
  /-- fewer bytes than a header has -/
  | header (hlt : fi.header.length < 4) (hparts : fi.frameParts = []) (hnone : fi.bytesRemaining = 0) :
      Holds fi fi.header
  /-- a header and a part of the message -/
  | parts {length : Nat} {content : List UInt8} (hlength : length ≤ fi.maxMessageSize.toNat)
      (hheader : fi.header = []) (hparts : fi.frameParts ≠ []) (hleft : fi.bytesRemaining + content.length = length)
      (hpos : 0 < fi.bytesRemaining)
      (hcontent : mergeMessage fi [] = bigEndian32 (BitVec.ofNat 32 length) ++ content) :
      Holds fi (bigEndian32 (BitVec.ofNat 32 length) ++ content)

theorem mergeMessage_eq (fi : FramingIface) (last : List UInt8) : mergeMessage fi last = mergeMessage fi [] ++ last := by
  have hfold : ∀ (parts : List (List UInt8)) (x y : List UInt8),
      parts.foldl (fun out part => part ++ out) (x ++ y) = parts.foldl (fun out part => part ++ out) x ++ y := by
    intro parts
    induction parts with
    | nil => intro x y; rfl
    | cons part parts ih =>
      intro x y
      rw [foldl_cons, foldl_cons, ← append_assoc, ih]
  exact hfold fi.frameParts [] last

variable {contents : List (List UInt8)} {fi : FramingIface}

/-- The loop hands out the messages that have come in whole and keeps the first bytes of the next one. -/
theorem receiveFrames_holds {msg} {rounds}
    (hsize : ∀ content ∈ contents, content.length ≤ fi.maxMessageSize.toNat) (hheader : fi.header.length < 4)
    (hparts : fi.frameParts = []) (hnone : fi.bytesRemaining = 0) (hrounds : msg.length < rounds)
    (hstream : fi.header ++ msg ++ rest = stream contents) :
    ∃ fi' done left held, receiveFrames fi msg rounds = .ret (fi', done) ∧ contents = done ++ left ∧
      fi'.maxMessageSize = fi.maxMessageSize ∧ Holds fi' held ∧ held ++ rest = stream left := by
  induction contents generalizing fi msg rounds with
  | nil =>
    obtain ⟨hbegun, rfl⟩ := append_eq_nil_iff.mp hstream
    obtain ⟨hempty, rfl⟩ := append_eq_nil_iff.mp hbegun
    cases rounds with
    | zero => omega
    | succ rounds =>
      refine ⟨fi, [], [], [], ?_, rfl, rfl, hempty ▸ .header hheader hparts hnone, rfl⟩
      exact if_pos hheader
  | cons content contents ih =>
    cases rounds with
    | zero => omega
    | succ rounds =>
    have hcontent := hsize content (by simp)
    have hframe : fi.header ++ msg ++ rest =
        bigEndian32 (BitVec.ofNat 32 content.length) ++ (content ++ stream contents) := by
      rw [hstream, stream_cons, frame, append_assoc]
    by_cases hshort : fi.header.length + msg.length < 4
    · -- the header is not complete yet
      refine ⟨{ fi with header := fi.header ++ msg }, [], content :: contents, fi.header ++ msg, ?_, rfl, rfl, ?_, ?_⟩
      · rw [receiveFrames, takeHeader_short hshort]
        exact if_pos (by rw [length_append]; exact hshort)
      · exact .header (by rw [length_append]; exact hshort) hparts hnone
      · exact hstream
    obtain ⟨body, hbody, hrest⟩ := exists_append_of_le hframe (by rw [length_bigEndian32, length_append]; omega)
    have hlength : lengthOf (bigEndian32 (BitVec.ofNat 32 content.length)) = content.length := by
      rw [lengthOf_bigEndian32, BitVec.toNat_ofNat]
      omega
    have hshorter : body.length < msg.length ∨ body.length = 0 := by
      have hlen := congrArg List.length hbody
      rw [length_append, length_append, length_bigEndian32] at hlen
      omega
    rw [receiveFrames, takeHeader_full (length_bigEndian32 _) (Nat.le_of_lt hheader) hbody]
    dsimp only
    rw [if_neg (by rw [length_bigEndian32]; decide), hlength, if_neg (Nat.not_lt.mpr hcontent)]
    rcases Nat.lt_trichotomy content.length body.length with hmore | hsame | hless
    · -- the message, and the beginning of what follows it
      obtain ⟨next, rfl, hnext⟩ := exists_append_of_le hrest (Nat.le_of_lt hmore)
      rw [length_append] at hmore hshorter
      obtain ⟨fi', done, left, held, hreceive, hsplit, hmax', hholds, hheld⟩ :=
        @ih { fi with header := [], bytesRemaining := 0 } next rounds (fun c hc => hsize c (by simp [hc]))
          (Nat.zero_lt_succ 3) hparts rfl (by omega) hnext
      refine ⟨fi', content :: done, left, held, ?_, by rw [hsplit]; rfl, hmax', hholds, hheld⟩
      rw [if_neg (by rw [length_append]; omega), if_pos (by rw [length_append]; omega), drop_left,
        take_left, hreceive, Er.ret_bind]
    · -- the message and no more
      obtain ⟨rfl, rfl⟩ := append_inj hrest hsame.symm
      refine ⟨{ fi with header := [], bytesRemaining := 0 }, [body], contents, [], ?_, rfl, rfl, ?_, rfl⟩
      · rw [if_pos rfl]
      · exact .header (Nat.zero_lt_succ 3) hparts rfl
    · -- a part of the message
      rw [if_neg (by omega), if_neg (by omega)]
      refine ⟨_, [], content :: contents, bigEndian32 (BitVec.ofNat 32 content.length) ++ body, rfl, rfl, rfl, ?_, ?_⟩
      · exact .parts hcontent rfl (by simp) (Nat.sub_add_cancel (Nat.le_of_lt hless)) (Nat.sub_pos_of_lt hless)
          (append_nil _)
      · rw [append_assoc, hrest, stream_cons, frame, append_assoc]

variable {held : List UInt8}

/-- A chunk is read as if the bytes that are held stood before it. -/
theorem receiveMessage_holds {chunk}
    (hsize : ∀ content ∈ contents, content.length ≤ fi.maxMessageSize.toNat) (hholds : Holds fi held)
    (hstream : held ++ chunk ++ rest = stream contents) :
    ∃ fi' done left held', receiveMessage fi chunk = .ret (fi', done) ∧ contents = done ++ left ∧
      fi'.maxMessageSize = fi.maxMessageSize ∧ Holds fi' held' ∧ held' ++ rest = stream left := by
  cases hholds with
  | header hlt hparts hnone =>
    rw [receiveMessage, if_neg (by omega), if_neg (by simp [hparts])]
    exact receiveFrames_holds hsize hlt hparts hnone (Nat.lt_succ_self _) hstream
  | @parts length content hlength hheader hparts hleft hpos hcontent =>
    rw [receiveMessage, if_neg (by omega), if_pos hparts]
    split
    next hwhole =>
      rw [Er.assertTrue_bind (decide_eq_true hheader)]
      refine receiveFrames_holds hsize (by rw [hheader]; decide) rfl rfl (Nat.lt_succ_self _) ?_
      rw [mergeMessage_eq, hcontent, hheader]
      exact hstream
    next hmore =>
      refine ⟨_, [], contents, bigEndian32 (BitVec.ofNat 32 length) ++ (content ++ chunk), rfl, rfl, rfl, ?_, ?_⟩
      · refine .parts hlength hheader (by simp) (by dsimp only; rw [length_append]; omega)
          (by dsimp only; omega) ?_
        rw [← append_assoc, ← hcontent, ← mergeMessage_eq]
        show fi.frameParts.foldl (fun out part => part ++ out) (chunk ++ []) = _
        rw [append_nil]
        rfl
      · rw [← hstream, append_assoc, append_assoc, append_assoc, append_assoc]

theorem Holds.left_nil {left} (hholds : Holds fi held) (hstream : held = stream left) :
    left = [] := by
  cases left with
  | nil => rfl
  | cons content left =>
    exfalso
    rw [stream_cons, frame, append_assoc] at hstream
    cases hholds with
    | header hlt =>
      rw [hstream, length_append, length_bigEndian32] at hlt
      omega
    | @parts length begun hlength hheader hparts hleft hpos hcontent =>
      obtain ⟨hsame, hbegun⟩ := append_inj hstream rfl
      have hnumber := congrArg lengthOf hsame
      have hlen := congrArg List.length hbegun
      rw [lengthOf_bigEndian32, lengthOf_bigEndian32, BitVec.toNat_ofNat, BitVec.toNat_ofNat] at hnumber
      rw [length_append] at hlen
      omega

theorem receiveAll_holds {chunks}
    (hsize : ∀ content ∈ contents, content.length ≤ fi.maxMessageSize.toNat) (hholds : Holds fi held)
    (hstream : held ++ chunks.flatten = stream contents) : ∃ fi', receiveAll fi chunks = .ret (fi', contents) := by
  induction chunks generalizing contents fi held with
  | nil =>
    rw [flatten_nil, append_nil] at hstream
    exact ⟨fi, by rw [receiveAll, hholds.left_nil hstream]⟩
  | cons chunk chunks ih =>
    rw [flatten_cons, ← append_assoc] at hstream
    obtain ⟨fi₁, done, left, held₁, hreceive, rfl, hmax, hholds₁, hleft⟩ := receiveMessage_holds hsize hholds hstream
    obtain ⟨fi', hrest⟩ := ih (fun c hc => hmax ▸ hsize c (by simp [hc])) hholds₁ hleft
    exact ⟨fi', by rw [receiveAll, hreceive, Er.ret_bind]; dsimp only; rw [hrest, Er.ret_bind]⟩

/-- **Framing is transparent.** However the stream that carries some messages is cut, the messages come out of
it, one by one and in order, and when its last chunk has come in all of them have. -/
theorem framing_transparent {maxMsgSize : BitVec 32} {msgs : List Message} {sent chunks : List (List UInt8)}
    (hsize : ∀ msg ∈ msgs, msg.length ≤ maxMsgSize.toNat)
    (hsent : List.Forall₂ (fun msg out => sendMessage msg = .ret out) msgs sent)
    (hcut : chunks.flatten = sent.flatten) :
    ∃ fi, receiveAll (new maxMsgSize) chunks = .ret (fi, msgs.map Message.bytes) := by
  have hframes : sent = (msgs.map Message.bytes).map frame := by
    clear hsize hcut
    induction hsent with
    | nil => rfl
    | cons hmsg _ ih => rw [sendMessage_eq hmsg, ih, map_cons, map_cons]
  refine receiveAll_holds ?_ (.header (Nat.zero_lt_succ 3) rfl rfl) ?_
  · intro content hcontent
    obtain ⟨msg, hmsg, rfl⟩ := mem_map.mp hcontent
    exact hsize msg hmsg
  · rw [hcut, hframes]
    rfl

/-- An empty message and one that is cut twice, in six chunks. -/
theorem framing_transparent_two :
    ∃ fi, receiveAll (new 4#32) [[0, 0], [], [0, 0, 0, 0, 0], [3, 7], [8], [9]] = .ret (fi, [[], [7, 8, 9]]) :=
  @framing_transparent 4#32 [⟨[1, 2, 3, 4], []⟩, ⟨[1, 2, 3, 4, 5], [7, 8, 9]⟩] [[0, 0, 0, 0], [0, 0, 0, 3, 7, 8, 9]]
    [[0, 0], [], [0, 0, 0, 0, 0], [3, 7], [8], [9]] (by decide) (.cons rfl (.cons rfl .nil)) rfl

end FramingIface

end Hyperboria

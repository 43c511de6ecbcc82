import Hotstuff.Library.Framing

/-! Reading and writing of protobuf messages to data streams: a message goes over the stream behind its length. The
protobuf codec is a parameter, as is where the bytes are written to. -/
namespace Hotstuff.Protostream
open Library

structure Proto (Msg : Type) where
  marshal : Msg → Except String (List UInt8)
  unmarshal : List UInt8 → Except String Msg

section Writer
variable {Msg σ : Type} (P : Proto Msg) (put : List UInt8 → σ → Option String × σ)

def write (msg : Msg) (dest : σ) : Option String × σ :=
  match P.marshal msg with
  | .error e => (some ("protostream: failed to marshal message: " ++ e),dest)
  | .ok buf => match put (leBytes 4 buf.length) dest with
    | (some e,dest) => (some ("protostream: failed to write message length: " ++ e),dest)
    | (none,dest) => match put buf dest with
      | (some e,dest) => (some ("protostream: failed to write message: " ++ e),dest)
      | (none,dest) => (none,dest)

def writes : List Msg → σ → List (Option String) × σ
  | [], dest => ([],dest)
  | msg :: msgs, dest =>
    let r := write P put msg dest
    let rest := writes msgs r.2
    (r.1 :: rest.1,rest.2)

end Writer

def appendTo (b dest : List UInt8) : Option String × List UInt8 := (none,dest ++ b)

/-- `io.ReadFull`: the end of the stream is an error of its own if not a byte was read. -/
def readFull (n : Nat) (src : List UInt8) : Except String (List UInt8) × List UInt8 :=
  match splitFirst n src with
  | some (b,src) => (.ok b,src)
  | none => (.error (if src = [] then "EOF" else "unexpected EOF"),[])

section Reader
variable {Msg : Type} (P : Proto Msg)

/-- `Reader.Read`: the message or the error, and the rest of the stream. -/
def read (src : List UInt8) : Except String Msg × List UInt8 :=
  match readFull 4 src with
  | (.error e,src) => (.error ("protostream: failed to read message length: " ++ e),src)
  | (.ok msgLenBuf,src) =>
    let msgLen := leValue msgLenBuf
    if msgLen > 2147483648 then (.error "protostream: message length is greater than 2 GiB",src)
    else match readFull msgLen src with
      | (.error e,src) => (.error ("protostream: failed to read message: " ++ e),src)
      | (.ok buf,src) => match P.unmarshal buf with
        | .error e => (.error ("protostream: failed to unmarshal message: " ++ e),src)
        | .ok msg => (.ok msg,src)

def reads : Nat → List UInt8 → List (Except String Msg)
  | 0, _ => []
  | n+1, src => (read P src).1 :: reads n (read P src).2

end Reader

variable {Msg : Type} {P : Proto Msg}

theorem readFull_append (a b : List UInt8) : readFull a.length (a ++ b) = (.ok a,b) := by
  rw [readFull,splitFirst_append]

theorem readFull_short {n : Nat} {src : List UInt8} (h : src.length < n) : ∃ e, readFull n src = (.error e,[]) := by
  rw [readFull,splitFirst_eq_none h]
  exact ⟨_,rfl⟩

structure Sendable (P : Proto Msg) (msg : Msg) (buf : List UInt8) : Prop where
  marshal : P.marshal msg = .ok buf
  unmarshal : P.unmarshal buf = .ok msg
  length_le : buf.length ≤ 2147483648

theorem write_appendTo {msg : Msg} {buf : List UInt8} (h : Sendable P msg buf) (dest : List UInt8) :
    write P appendTo msg dest = (none,dest ++ frame buf) := by
  rw [write,h.marshal]
  dsimp only [appendTo]
  rw [List.append_assoc,frame]

private theorem readFull_length {buf : List UInt8} (rest : List UInt8) :
    readFull 4 (leBytes 4 buf.length ++ rest) = (.ok (leBytes 4 buf.length),rest) := by
  have h := readFull_append (leBytes 4 buf.length) rest
  rwa [length_leBytes] at h

private theorem leValue_length {buf : List UInt8} (h : buf.length ≤ 2147483648) :
    leValue (leBytes 4 buf.length) = buf.length := leValue_leBytes 4 _ (by omega)

theorem read_frame {msg : Msg} {buf : List UInt8} (h : Sendable P msg buf) (rest : List UInt8) :
    read P (frame buf ++ rest) = (.ok msg,rest) := by
  rw [read,frame,List.append_assoc,readFull_length]
  dsimp only
  rw [leValue_length h.length_le,if_neg (Nat.not_lt.mpr h.length_le),readFull_append]
  dsimp only
  rw [h.unmarshal]

/-- An incomplete message is an error, wherever it is cut. -/
theorem read_cut {buf q : List UInt8} (h : buf.length ≤ 2147483648) (hq : q <+: frame buf) (hne : q ≠ frame buf) :
    ∃ e, (read P q).1 = .error e := by
  rcases prefix_frame hq hne with hlen | ⟨c,rfl,hlen⟩
  · obtain ⟨e,he⟩ := readFull_short hlen
    rw [read,he]
    exact ⟨_,rfl⟩
  · obtain ⟨e,he⟩ := readFull_short hlen
    rw [read,readFull_length]
    dsimp only
    rw [leValue_length h,if_neg (Nat.not_lt.mpr h),he]
    exact ⟨_,rfl⟩

def bytesOf (P : Proto Msg) (msg : Msg) : List UInt8 := (P.marshal msg).toOption.getD []

def framesOf (P : Proto Msg) (msgs : List Msg) : List UInt8 := (msgs.map fun msg => frame (bytesOf P msg)).flatten

theorem framesOf_append (a b : List Msg) : framesOf P (a ++ b) = framesOf P a ++ framesOf P b := by
  rw [framesOf,List.map_append,List.flatten_append,framesOf,framesOf]

theorem writes_appendTo {msgs : List Msg} (h : ∀ msg ∈ msgs, Sendable P msg (bytesOf P msg)) (dest : List UInt8) :
    writes P appendTo msgs dest = (msgs.map fun _ => none,dest ++ framesOf P msgs) := by
  induction msgs generalizing dest with
  | nil => simp [writes,framesOf]
  | cons msg msgs ih =>
    have hmsg := write_appendTo (h msg List.mem_cons_self) dest
    have hrest := ih (fun m hm => h m (List.mem_cons_of_mem _ hm)) (dest ++ frame (bytesOf P msg))
    rw [writes,hmsg]
    dsimp only
    rw [hrest,List.append_assoc]
    rfl

theorem reads_frames {msgs : List Msg} (h : ∀ msg ∈ msgs, Sendable P msg (bytesOf P msg)) (n : Nat)
    (rest : List UInt8) :
    reads P (msgs.length + n) (framesOf P msgs ++ rest) = msgs.map .ok ++ reads P n rest := by
  induction msgs with
  | nil => simp [framesOf]
  | cons msg msgs ih =>
    have hread := read_frame (h msg List.mem_cons_self) (framesOf P msgs ++ rest)
    have hsplit : framesOf P (msg :: msgs) ++ rest = frame (bytesOf P msg) ++ (framesOf P msgs ++ rest) := by
      rw [framesOf,List.map_cons,List.flatten_cons,List.append_assoc,framesOf]
    rw [List.length_cons,Nat.add_right_comm,reads,hsplit,hread,ih fun m hm => h m (List.mem_cons_of_mem _ hm),
      List.map_cons,List.cons_append]

/-- Where a stream is cut off: behind some whole messages, within the next one. -/
private theorem cut_framesOf {msgs : List Msg} {p : List UInt8} (hp : p <+: framesOf P msgs)
    (hne : p ≠ framesOf P msgs) : ∃ done msg rest q, msgs = done ++ msg :: rest ∧ p = framesOf P done ++ q ∧
      q <+: frame (bytesOf P msg) ∧ q ≠ frame (bytesOf P msg) := by
  obtain ⟨a,x,b,q,hab,hpq,hq,hqne⟩ := exists_cut hp hne
  obtain ⟨done,tail,rfl,rfl,htail⟩ := List.map_eq_append_iff.mp hab
  obtain ⟨msg,rest,rfl,rfl,-⟩ := List.map_eq_cons_iff.mp htail
  exact ⟨done,msg,rest,q,rfl,hpq,hq,hqne⟩

/-- What is written comes back message by message, then the end of the stream. Of a stream that is cut off, the
messages that are whole come back, then an error. -/
theorem protostream_framing (P : Proto Msg) (hinv : ∀ msg buf, P.marshal msg = .ok buf → P.unmarshal buf = .ok msg)
    (msgs : List Msg) (hlen : ∀ msg ∈ msgs, ∃ buf, P.marshal msg = .ok buf ∧ buf.length ≤ 2^31) : ∃ stream,
    writes P appendTo msgs [] = (msgs.map fun _ => none,stream) ∧
    reads P (msgs.length + 1) stream = msgs.map .ok ++ [.error "protostream: failed to read message length: EOF"] ∧
    ∀ p, p <+: stream → p ≠ stream → ∃ done msg rest e, msgs = done ++ msg :: rest ∧
      (writes P appendTo done []).2 <+: p ∧ p.length < (writes P appendTo (done ++ [msg]) []).2.length ∧
      reads P (done.length + 1) p = done.map .ok ++ [.error e] := by
  have hsend (msg : Msg) (hm : msg ∈ msgs) : Sendable P msg (bytesOf P msg) := by
    obtain ⟨buf,hbuf,hle⟩ := hlen msg hm
    have hbytes : bytesOf P msg = buf := by rw [bytesOf,hbuf]; rfl
    rw [hbytes]
    exact ⟨hbuf,hinv msg buf hbuf,hle⟩
  refine ⟨framesOf P msgs,writes_appendTo hsend [],?_,fun p hp hne => ?_⟩
  · have hall := reads_frames hsend 1 []
    rwa [List.append_nil] at hall
  · obtain ⟨done,msg,rest,q,rfl,rfl,hq,hqne⟩ := cut_framesOf hp hne
    have hdone (m : Msg) (hm : m ∈ done) : Sendable P m (bytesOf P m) := hsend m (List.mem_append_left _ hm)
    have hmsg : Sendable P msg (bytesOf P msg) := hsend msg (by simp)
    have hnext (m : Msg) (hm : m ∈ done ++ [msg]) : Sendable P m (bytesOf P m) := by
      rcases List.mem_append.mp hm with hm | hm
      · exact hdone m hm
      · exact List.mem_singleton.mp hm ▸ hmsg
    obtain ⟨e,he⟩ := read_cut (P := P) hmsg.length_le hq hqne
    refine ⟨done,msg,rest,e,rfl,?_,?_,?_⟩
    · rw [writes_appendTo hdone]
      exact List.prefix_append _ _
    · have hlt : q.length < (frame (bytesOf P msg)).length :=
        lt_of_le_of_ne hq.length_le fun heq => hqne (hq.eq_of_length heq)
      rw [writes_appendTo hnext,framesOf_append,List.nil_append,List.length_append,List.length_append]
      simpa [framesOf] using hlt
    · rw [reads_frames hdone,reads,he,reads]

private def raw : Proto (List UInt8) := ⟨.ok,.ok⟩

/-- An empty message and one of two bytes; cut off after the fifth byte, only the first comes back. -/
theorem protostream_framing_raw : ∃ stream, writes raw appendTo [[],[7,8]] [] = ([none,none],stream) ∧
    stream = [0,0,0,0,2,0,0,0,7,8] ∧
    reads raw 3 stream = [.ok [],.ok [7,8],.error "protostream: failed to read message length: EOF"] ∧
    ∃ e, reads raw 2 [0,0,0,0,2] = [.ok [],.error e] := by
  obtain ⟨stream,hwrite,hread,hcut⟩ := protostream_framing raw (fun _ _ h => congrArg _ (Except.ok.inj h).symm)
    [[],[7,8]] (by
      intro msg hm
      simp only [List.mem_cons,List.not_mem_nil,or_false] at hm
      rcases hm with rfl | rfl
      · exact ⟨[],rfl,by simp⟩
      · exact ⟨[7,8],rfl,by simp⟩)
  have hstream : stream = [0,0,0,0,2,0,0,0,7,8] := (congrArg Prod.snd hwrite).symm
  refine ⟨stream,hwrite,hstream,hread,?_⟩
  obtain ⟨done,msg,rest,e,hsplit,-,hlt,hreads⟩ := hcut [0,0,0,0,2] (hstream ▸ ⟨[0,0,0,7,8],rfl⟩) (by simp [hstream])
  rcases done with _ | ⟨first,_ | ⟨second,done⟩⟩
  · cases hsplit
    exact absurd hlt (by decide)
  · cases hsplit
    exact ⟨e,hreads⟩
  · simp at hsplit

end Hotstuff.Protostream

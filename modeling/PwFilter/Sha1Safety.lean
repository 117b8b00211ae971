import PwFilter.Sha1Streaming
import PwFilter.WhileLoop

/-!
# What the streaming object touches

`Update` and `Final` once more, with the pointer `p` and the count `len` of the
source and a record of every byte they read or write.  The loops run on fuel.
All calls come to an end, do what the functions on lists do, and touch only the
block buffer and the caller's data.
-/

namespace PwFilter

namespace Sha1

/-- A write to `buffer_`, a read of `*p`, and the two arguments that
`ProcessBlock` is called with: `buffer_`, of which `filled` bytes have been
written, and `p`. -/
inductive Access where
  | bufferWrite (index : ℕ)
  | inputRead (offset length : ℕ)
  | bufferBlock (filled : ℕ)
  | inputBlock (offset length : ℕ)
  deriving DecidableEq, Repr

def Access.Safe : Access → Prop
  | .bufferWrite index => index < 64
  | .inputRead offset length => offset < length
  | .bufferBlock filled => filled = 64
  | .inputBlock offset length => offset + 64 ≤ length

/-- The variables of a call; `p` is an offset into the caller's data. -/
structure CallState where
  object : Sha1
  p : ℕ
  len : ℕ
  log : List Access

namespace CallState

/-- `buffer_[buffer_len_++] = b` -/
def write (b : UInt8) (r : CallState) : CallState :=
  { r with
    object := r.object.put b
    log := r.log ++ [.bufferWrite r.object.bufferLen] }

/-- `buffer_[buffer_len_++] = *p++; --len` -/
def writeInput (data : List UInt8) (r : CallState) : CallState :=
  let b := data.getD r.p 0
  write b
    { r with
      p := r.p + 1
      len := r.len - 1
      log := r.log ++ [.inputRead r.p data.length] }

/-- `ProcessBlock(buffer_); buffer_len_ = 0` -/
def flush (r : CallState) : CallState :=
  { r with
    object := r.object.flush
    log := r.log ++ [.bufferBlock r.object.bufferLen] }

/-- `ProcessBlock(p); p += 64; len -= 64` -/
def inputBlock (data : List UInt8) (r : CallState) : CallState :=
  { object := r.object.processBlock ((data.drop r.p).take 64)
    p := r.p + 64
    len := r.len - 64
    log := r.log ++ [.inputBlock r.p data.length] }

def topUpLoop (data : List UInt8) : CallState → Option CallState :=
  WhileLoop.run (fun r => r.len > 0 && r.object.bufferLen < 64)
    (writeInput data) (data.length + 1)

def blockLoop (data : List UInt8) : CallState → Option CallState :=
  WhileLoop.run (fun r => r.len ≥ 64) (inputBlock data) (data.length + 1)

def stashLoop (data : List UInt8) : CallState → Option CallState :=
  WhileLoop.run (fun r => r.len > 0) (writeInput data) (data.length + 1)

def zeroLoop (limit : ℕ) : CallState → Option CallState :=
  WhileLoop.run (fun r => r.object.bufferLen < limit) (write 0) (limit + 1)

def lengthLoop (messageBits : UInt64) (r : CallState) : CallState :=
  ([7, 6, 5, 4, 3, 2, 1, 0] : List UInt64).foldl
    (fun r i => write ((messageBits >>> (i * 8)) &&& 0xFF).toUInt8 r) r

/-- `if (buffer_len_ > 0)` of `Update` -/
def topUpStage (data : List UInt8) (r : CallState) : Option CallState :=
  if r.object.bufferLen > 0 then
    (topUpLoop data r).map fun r =>
      if r.object.bufferLen = 64 then r.flush else r
  else some r

/-- `if (buffer_len_ > 56)` of `Final` -/
def spillStage (r : CallState) : Option CallState :=
  if r.object.bufferLen > 56 then (zeroLoop 64 r).map flush else some r

end CallState

open CallState

def updateRun (s : Sha1) (data : List UInt8) : Option CallState := do
  let r ← topUpStage data
    { object := { s with
        totalBits := s.totalBits + UInt64.ofNat data.length * 8 }
      p := 0
      len := data.length
      log := [] }
  let r ← blockLoop data r
  stashLoop data r

def finalRun (s : Sha1) : Option (Sha1Digest × CallState) := do
  let messageBits := s.totalBits
  let r := write 0x80 { object := s, p := 0, len := 0, log := [] }
  let r ← spillStage r
  let r ← zeroLoop 56 r
  let r := (lengthLoop messageBits r).flush
  pure (digestOf r.object.h, r)

def callRun (s : Sha1) : Call → Option (Sha1 × List Access)
  | .reset => some (s.reset, [])
  | .update data => do
      let r ← s.updateRun data
      pure (r.object, r.log)
  | .final => do
      let (_, r) ← s.finalRun
      pure (r.object, r.log)

def callsRun (s : Sha1) : List Call → Option (Sha1 × List Access)
  | [] => some (s, [])
  | c :: history => do
      let (s, log) ← s.callRun c
      let (s, rest) ← callsRun s history
      pure (s, log ++ rest)

/-! ## One access -/

namespace CallState

/-- What is left to read ends where the data ends, and nothing unsafe has
happened yet. -/
structure Inside (data : List UInt8) (r : CallState) : Prop where
  rest : r.p + r.len = data.length
  safe : ∀ a ∈ r.log, a.Safe

theorem flush_eq (r : CallState) :
    r.flush =
      { r with
        object := r.object.flush
        log := r.log ++ [.bufferBlock r.object.bufferLen] } := rfl

theorem flush_bufferLen (r : CallState) : r.flush.object.bufferLen = 0 := by
  rw [flush_eq, Sha1.flush]

theorem processBlock_bufferLen (s : Sha1) (block : List UInt8) :
    (s.processBlock block).bufferLen = s.bufferLen := by
  rw [processBlock]

theorem inputBlock_bufferLen (data : List UInt8) (r : CallState) :
    (inputBlock data r).object.bufferLen = r.object.bufferLen :=
  processBlock_bufferLen _ _

theorem safe_append
    {log : List Access} {a : Access} (hlog : ∀ b ∈ log, b.Safe)
    (ha : a.Safe) : ∀ b ∈ log ++ [a], b.Safe := by
  intro b hb
  rcases List.mem_append.mp hb with hold | hnew
  · exact hlog b hold
  · rw [List.mem_singleton.mp hnew]
    exact ha

theorem Inside.write
    {data : List UInt8} {r : CallState} (h : Inside data r) (b : UInt8)
    (hroom : r.object.bufferLen < 64) : Inside data (write b r) :=
  ⟨h.rest, safe_append h.safe hroom⟩

theorem Inside.writeInput
    {data : List UInt8} {r : CallState} (h : Inside data r) (hlen : 0 < r.len)
    (hroom : r.object.bufferLen < 64) : Inside data (writeInput data r) := by
  have hrest := h.rest
  have hread : (Access.inputRead r.p data.length).Safe := by
    show r.p < data.length
    omega
  refine ⟨?_, safe_append (safe_append h.safe hread) hroom⟩
  show r.p + 1 + (r.len - 1) = data.length
  omega

theorem Inside.flush
    {data : List UInt8} {r : CallState} (h : Inside data r)
    (hfull : r.object.bufferLen = 64) : Inside data r.flush := by
  rw [flush_eq]
  exact ⟨h.rest, safe_append h.safe hfull⟩

theorem Inside.inputBlock
    {data : List UInt8} {r : CallState} (h : Inside data r)
    (hlong : 64 ≤ r.len) : Inside data (inputBlock data r) := by
  have hrest := h.rest
  have hblock : (Access.inputBlock r.p data.length).Safe := by
    show r.p + 64 ≤ data.length
    omega
  refine ⟨?_, safe_append h.safe hblock⟩
  show r.p + 64 + (r.len - 64) = data.length
  omega

/-- The list that `p` points to, while something is left. -/
theorem Inside.drop_eq
    {data : List UInt8} {r : CallState} (h : Inside data r)
    (hlen : 0 < r.len) :
    data.drop r.p = data.getD r.p 0 :: data.drop (r.p + 1) := by
  have hrest := h.rest
  have hp : r.p < data.length := by omega
  rw [List.drop_eq_getElem_cons hp, List.getD_eq_getElem?_getD,
    List.getElem?_eq_getElem hp]
  rfl

theorem Inside.drop_nil
    {data : List UInt8} {r : CallState} (h : Inside data r)
    (hlen : r.len = 0) : data.drop r.p = [] := by
  have hrest := h.rest
  exact List.drop_of_length_le (by omega)

/-! ## The loops -/

theorem topUpLoop_spec
    {data : List UInt8} {r : CallState} (h : Inside data r)
    (hlen : r.object.bufferLen ≤ 64) :
    ∃ r', topUpLoop data r = some r' ∧ Inside data r' ∧
      topUp r.object (data.drop r.p) = (r'.object, data.drop r'.p) ∧
      r'.object.bufferLen ≤ 64 ∧
      (r'.len = 0 ∨ r'.object.bufferLen = 64) := by
  -- what is still to be topped up stays the same
  have hkeeps : WhileLoop.Keeps
      (fun r : CallState => r.len > 0 && r.object.bufferLen < 64)
      (CallState.writeInput data)
      (fun r' => Inside data r' ∧ r'.object.bufferLen ≤ 64 ∧
        topUp r.object (data.drop r.p) = topUp r'.object (data.drop r'.p))
      (fun r' => r'.len) := by
    constructor
    · rintro r' ⟨hin, hle, hsame⟩ htest
      simp only [Bool.and_eq_true, decide_eq_true_eq] at htest
      refine ⟨hin.writeInput htest.1 htest.2, htest.2, ?_⟩
      rw [hsame, hin.drop_eq htest.1, topUp, if_pos htest.2]
      rfl
    · rintro r' _ htest
      simp only [Bool.and_eq_true, decide_eq_true_eq] at htest
      show r'.len - 1 < r'.len
      omega
  have hrest := h.rest
  obtain ⟨r', hrun, ⟨hin, hle, hsame⟩, hend⟩ :=
    hkeeps.result (data.length + 1) ⟨h, hlen, rfl⟩ (by omega)
  simp only [Bool.and_eq_false_iff, decide_eq_false_iff_not] at hend
  refine ⟨r', hrun, hin, hsame.trans ?_, hle, by omega⟩
  rcases Nat.eq_zero_or_pos r'.len with hzero | hpos
  · rw [hin.drop_nil hzero]
    rfl
  · rw [hin.drop_eq hpos, topUp, if_neg (by omega)]

theorem blockLoop_spec
    {data : List UInt8} {r : CallState} (h : Inside data r) :
    ∃ r', blockLoop data r = some r' ∧ Inside data r' ∧
      wholeBlocks r.object (data.drop r.p) = (r'.object, data.drop r'.p) ∧
      r'.object.bufferLen = r.object.bufferLen ∧ r'.len < 64 ∧
      r'.len ≤ r.len := by
  have hleft : ∀ {r' : CallState}, Inside data r' →
      (data.drop r'.p).length = r'.len := by
    intro r' hin
    have hrest := hin.rest
    rw [List.length_drop]
    omega
  have hkeeps : WhileLoop.Keeps (fun r : CallState => r.len ≥ 64)
      (CallState.inputBlock data)
      (fun r' => Inside data r' ∧
        r'.object.bufferLen = r.object.bufferLen ∧ r'.len ≤ r.len ∧
        wholeBlocks r.object (data.drop r.p) =
          wholeBlocks r'.object (data.drop r'.p))
      (fun r' => r'.len) := by
    constructor
    · rintro r' ⟨hin, hbuffer, hle, hsame⟩ htest
      have hlong : 64 ≤ r'.len := of_decide_eq_true htest
      refine ⟨hin.inputBlock hlong, ?_, ?_, ?_⟩
      · rw [inputBlock_bufferLen, hbuffer]
      · show r'.len - 64 ≤ r.len
        omega
      · rw [hsame, wholeBlocks, if_pos (by rw [hleft hin]; exact hlong),
          List.drop_drop]
        rfl
    · rintro r' _ htest
      have hlong : 64 ≤ r'.len := of_decide_eq_true htest
      show r'.len - 64 < r'.len
      omega
  have hrest := h.rest
  obtain ⟨r', hrun, ⟨hin, hbuffer, hle, hsame⟩, hend⟩ :=
    hkeeps.result (data.length + 1) ⟨h, rfl, le_refl _, rfl⟩ (by omega)
  have hshort : ¬ 64 ≤ r'.len := of_decide_eq_false hend
  refine ⟨r', hrun, hin, hsame.trans ?_, hbuffer, by omega, hle⟩
  rw [wholeBlocks, if_neg (by rw [hleft hin]; exact hshort)]

theorem stashLoop_spec
    {data : List UInt8} {r : CallState} (h : Inside data r)
    (hroom : r.object.bufferLen + r.len < 64) :
    ∃ r', stashLoop data r = some r' ∧ Inside data r' ∧
      r'.object = stash r.object (data.drop r.p) ∧
      r'.object.bufferLen < 64 := by
  have hkeeps : WhileLoop.Keeps (fun r : CallState => r.len > 0)
      (CallState.writeInput data)
      (fun r' => Inside data r' ∧ r'.object.bufferLen + r'.len < 64 ∧
        stash r.object (data.drop r.p) = stash r'.object (data.drop r'.p))
      (fun r' => r'.len) := by
    constructor
    · rintro r' ⟨hin, hfit, hsame⟩ htest
      have hpos : 0 < r'.len := of_decide_eq_true htest
      refine ⟨hin.writeInput hpos (by omega), ?_, ?_⟩
      · show r'.object.bufferLen + 1 + (r'.len - 1) < 64
        omega
      · rw [hsame, hin.drop_eq hpos, stash]
        rfl
    · rintro r' _ htest
      have hpos : 0 < r'.len := of_decide_eq_true htest
      show r'.len - 1 < r'.len
      omega
  have hrest := h.rest
  obtain ⟨r', hrun, ⟨hin, hfit, hsame⟩, hend⟩ :=
    hkeeps.result (data.length + 1) ⟨h, hroom, rfl⟩ (by omega)
  have hzero : ¬ 0 < r'.len := of_decide_eq_false hend
  refine ⟨r', hrun, hin, ?_, by omega⟩
  rw [hsame, hin.drop_nil (by omega)]
  rfl

theorem zeroLoop_spec
    {data : List UInt8} {r : CallState} {limit : ℕ} (h : Inside data r)
    (hlimit : limit ≤ 64) :
    ∃ r', zeroLoop limit r = some r' ∧ Inside data r' ∧
      r'.object = fillZeros limit r.object ∧
      r'.object.bufferLen = max limit r.object.bufferLen := by
  have hkeeps : WhileLoop.Keeps
      (fun r : CallState => r.object.bufferLen < limit) (CallState.write 0)
      (fun r' => Inside data r' ∧
        max limit r'.object.bufferLen = max limit r.object.bufferLen ∧
        fillZeros limit r.object = fillZeros limit r'.object)
      (fun r' => limit - r'.object.bufferLen) := by
    constructor
    · rintro r' ⟨hin, hmax, hsame⟩ htest
      have hless : r'.object.bufferLen < limit := of_decide_eq_true htest
      refine ⟨hin.write 0 (by omega), ?_, ?_⟩
      · show max limit (r'.object.bufferLen + 1) = _
        omega
      · rw [hsame, fillZeros, if_pos hless]
        rfl
    · rintro r' _ htest
      have hless : r'.object.bufferLen < limit := of_decide_eq_true htest
      show limit - (r'.object.bufferLen + 1) < limit - r'.object.bufferLen
      omega
  obtain ⟨r', hrun, ⟨hin, hmax, hsame⟩, hend⟩ :=
    hkeeps.result (limit + 1) ⟨h, rfl, rfl⟩ (by omega)
  have hdone : ¬ r'.object.bufferLen < limit := of_decide_eq_false hend
  refine ⟨r', hrun, hin, ?_, by omega⟩
  rw [hsame, fillZeros, if_neg hdone]

theorem lengthLoop_spec
    {data : List UInt8} {r : CallState} (messageBits : UInt64)
    (h : Inside data r) (hlen : r.object.bufferLen = 56) :
    Inside data (lengthLoop messageBits r) ∧
      (lengthLoop messageBits r).object = putLength messageBits r.object ∧
      (lengthLoop messageBits r).object.bufferLen = 64 := by
  have hrounds : ∀ (is : List UInt64) (r : CallState), Inside data r →
      r.object.bufferLen + is.length ≤ 64 →
      Inside data (is.foldl (fun r i =>
          CallState.write ((messageBits >>> (i * 8)) &&& 0xFF).toUInt8 r) r) ∧
        (is.foldl (fun r i =>
          CallState.write ((messageBits >>> (i * 8)) &&& 0xFF).toUInt8 r)
            r).object =
          is.foldl (fun s i =>
            s.put ((messageBits >>> (i * 8)) &&& 0xFF).toUInt8) r.object ∧
        (is.foldl (fun r i =>
          CallState.write ((messageBits >>> (i * 8)) &&& 0xFF).toUInt8 r)
            r).object.bufferLen = r.object.bufferLen + is.length := by
    intro is
    induction is with
    | nil => exact fun r h _ => ⟨h, rfl, rfl⟩
    | cons i is ih =>
        intro r h hfit
        rw [List.length_cons] at hfit
        have hnext : (CallState.write
            ((messageBits >>> (i * 8)) &&& 0xFF).toUInt8 r).object.bufferLen =
              r.object.bufferLen + 1 := rfl
        obtain ⟨hin, hobject, hcount⟩ := ih _
          (h.write ((messageBits >>> (i * 8)) &&& 0xFF).toUInt8 (by omega))
          (by omega)
        refine ⟨hin, hobject, ?_⟩
        rw [List.foldl_cons, hcount, hnext, List.length_cons]
        omega
  obtain ⟨hin, hobject, hcount⟩ :=
    hrounds [7, 6, 5, 4, 3, 2, 1, 0] r h (by rw [hlen]; decide)
  refine ⟨hin, hobject, hcount.trans ?_⟩
  rw [hlen]
  rfl

end CallState

/-! ## The calls -/

/-- After the first stage the buffer is empty, or there is nothing left to
read. -/
theorem topUpStage_spec
    {data : List UInt8} {r : CallState} (h : Inside data r)
    (hlen : r.object.bufferLen < 64) :
    ∃ r', topUpStage data r = some r' ∧ Inside data r' ∧
      afterTopUp r.object (data.drop r.p) = (r'.object, data.drop r'.p) ∧
      (r'.object.bufferLen = 0 ∨ r'.len = 0 ∧ r'.object.bufferLen < 64) := by
  by_cases hpos : r.object.bufferLen > 0
  · obtain ⟨r', hrun, hin, htop, hle, hend⟩ := topUpLoop_spec h hlen.le
    by_cases hfull : r'.object.bufferLen = 64
    · refine ⟨r'.flush, ?_, hin.flush hfull, ?_, Or.inl (flush_bufferLen r')⟩
      · rw [topUpStage, if_pos hpos, hrun, Option.map_some, if_pos hfull]
      · rw [afterTopUp, if_pos hpos, htop, flush_eq]
        simp only [hfull, if_true]
    · refine ⟨r', ?_, hin, ?_, Or.inr (by omega)⟩
      · rw [topUpStage, if_pos hpos, hrun, Option.map_some, if_neg hfull]
      · rw [afterTopUp, if_pos hpos, htop]
        simp only [hfull, if_false]
  · refine ⟨r, ?_, h, ?_, Or.inl (by omega)⟩
    · rw [topUpStage, if_neg hpos]
    · rw [afterTopUp, if_neg hpos]

theorem updateRun_spec
    {s : Sha1} (hlen : s.bufferLen < 64) (data : List UInt8) :
    ∃ r, s.updateRun data = some r ∧ r.object = s.update data ∧
      r.object.bufferLen < 64 ∧ ∀ a ∈ r.log, a.Safe := by
  have hstart : Inside data
      { object := counted s data.length, p := 0, len := data.length,
        log := [] } := ⟨Nat.zero_add _, by simp⟩
  obtain ⟨r₁, hrun₁, hin₁, htop, hcase⟩ := topUpStage_spec hstart hlen
  obtain ⟨r₂, hrun₂, hin₂, hblocks, hbuffer, hshort, hless⟩ :=
    blockLoop_spec hin₁
  obtain ⟨r₃, hrun₃, hin₃, hstash, hend⟩ :=
    stashLoop_spec hin₂ (by omega)
  refine ⟨r₃, ?_, ?_, hend, hin₃.safe⟩
  · rw [counted] at hrun₁
    simp only [updateRun, Option.bind_eq_bind, hrun₁, Option.bind_some, hrun₂,
      hrun₃]
  · rw [List.drop_zero] at htop
    rw [update_eq, htop, hblocks, hstash]

/-- After the spill there is room for the zeros and the length. -/
theorem spillStage_spec
    {data : List UInt8} {r : CallState} (h : Inside data r)
    (hlen : r.object.bufferLen ≤ 64) :
    ∃ r', spillStage r = some r' ∧ Inside data r' ∧
      r'.object = (if r.object.bufferLen > 56
        then (fillZeros 64 r.object).flush else r.object) ∧
      r'.object.bufferLen ≤ 56 := by
  by_cases hlong : r.object.bufferLen > 56
  · obtain ⟨r', hrun, hin, hzeros, hmax⟩ := zeroLoop_spec h (le_refl 64)
    have hempty := flush_bufferLen r'
    refine ⟨r'.flush, ?_, hin.flush (by omega), ?_, by omega⟩
    · rw [spillStage, if_pos hlong, hrun, Option.map_some]
    · rw [if_pos hlong, flush_eq, hzeros]
  · refine ⟨r, ?_, h, ?_, by omega⟩
    · rw [spillStage, if_neg hlong]
    · rw [if_neg hlong]

theorem finalRun_spec {s : Sha1} (hlen : s.bufferLen < 64) :
    ∃ r, s.finalRun = some (s.final.1, r) ∧ r.object = s.final.2 ∧
      r.object.bufferLen < 64 ∧ ∀ a ∈ r.log, a.Safe := by
  have hstart : Inside [] { object := s, p := 0, len := 0, log := [] } :=
    ⟨rfl, by simp⟩
  have hmark := hstart.write 0x80 hlen
  have hcount : (write 0x80
      { object := s, p := 0, len := 0, log := [] }).object.bufferLen =
        s.bufferLen + 1 := rfl
  obtain ⟨r₁, hrun₁, hin₁, hspill, hle⟩ := spillStage_spec hmark (by omega)
  obtain ⟨r₂, hrun₂, hin₂, hzeros, hmax⟩ :=
    zeroLoop_spec hin₁ (show 56 ≤ 64 by norm_num)
  obtain ⟨hin₃, hlength, hfull⟩ :=
    lengthLoop_spec s.totalBits hin₂ (by omega)
  have hobject : (lengthLoop s.totalBits r₂).flush.object = s.final.2 := by
    rw [flush_eq, hlength, hzeros, hspill]
    rfl
  refine ⟨(lengthLoop s.totalBits r₂).flush, ?_, hobject, ?_,
    (hin₃.flush hfull).safe⟩
  · simp only [finalRun, Option.bind_eq_bind, hrun₁, Option.bind_some, hrun₂,
      hobject]
    rfl
  · rw [flush_bufferLen]
    norm_num

theorem callRun_spec {s : Sha1} (hlen : s.bufferLen < 64) (c : Call) :
    ∃ log, s.callRun c = some (s.call c, log) ∧
      (s.call c).bufferLen < 64 ∧ ∀ a ∈ log, a.Safe := by
  cases c with
  | reset =>
      refine ⟨[], rfl, ?_, by simp⟩
      show 0 < 64
      norm_num
  | update data =>
      obtain ⟨r, hrun, hobject, hless, hsafe⟩ := updateRun_spec hlen data
      refine ⟨r.log, ?_, ?_, hsafe⟩
      · simp only [callRun, hrun, Option.bind_eq_bind, Option.bind_some,
          hobject, call]
        rfl
      · rw [call, ← hobject]
        exact hless
  | final =>
      obtain ⟨r, hrun, hobject, hless, hsafe⟩ := finalRun_spec hlen
      refine ⟨r.log, ?_, ?_, hsafe⟩
      · simp only [callRun, hrun, Option.bind_eq_bind, Option.bind_some,
          hobject, call]
        rfl
      · rw [call, ← hobject]
        exact hless

/-- Whatever is called in whatever order, every call comes to an end, writes
only into the block buffer, hashes only whole blocks of the buffer or of the
caller's data, and leaves room in the buffer. -/
theorem calls_stay_in_buffer (memory : Vector UInt8 64) (history : List Call) :
    ((new memory).calls history).bufferLen < 64 ∧
      ∃ log, (new memory).callsRun history =
          some ((new memory).calls history, log) ∧
        ∀ a ∈ log, a.Safe := by
  have hrun : ∀ s : Sha1, s.bufferLen < 64 →
      (s.calls history).bufferLen < 64 ∧
        ∃ log, s.callsRun history = some (s.calls history, log) ∧
          ∀ a ∈ log, a.Safe := by
    induction history with
    | nil => exact fun s hlen => ⟨hlen, [], rfl, by simp⟩
    | cons c history ih =>
        intro s hlen
        obtain ⟨log, hone, hless, hsafe⟩ := callRun_spec hlen c
        obtain ⟨hend, rest, hrest, hsafe'⟩ := ih (s.call c) hless
        refine ⟨hend, log ++ rest, ?_, ?_⟩
        · simp only [callsRun, hone, hrest, Option.bind_eq_bind,
            Option.bind_some]
          rfl
        · intro a ha
          rcases List.mem_append.mp ha with hnow | hlater
          · exact hsafe a hnow
          · exact hsafe' a hlater
  exact hrun (new memory) (new_inBounds memory).bufferLen

end Sha1

end PwFilter

import PwFilter.ByteMemory
import PwFilter.Sha1

/-!
# The streaming object computes SHA-1

One invariant carries the proof: after any updates the object holds the hash
of the whole blocks of the message so far, and its buffer starts with what is
left over.
-/

namespace PwFilter

open Fips180 BlockFold

namespace Sha1

/-! ## The compression function -/

theorem rol32_eq (v n : UInt32) : rol32 v n = rotl n v := rfl

theorem loadWords_eq (block : List UInt8) :
    loadWords block = (List.range 16).map (schedule block) := by
  apply List.map_congr_left
  intro t ht
  have hlt : t < 16 := List.mem_range.mp ht
  rw [schedule, if_pos hlt, wordAt, Nat.mul_comm 4 t]

theorem getD_map_range (f : ℕ → UInt32) {n i : ℕ} (hi : i < n) :
    ((List.range n).map f).getD i 0 = f i := by
  rw [List.getD_eq_getElem?_getD, List.getElem?_map, List.getElem?_range hi]
  rfl

theorem expandWords_eq
    (block : List UInt8) (left : ℕ) {n : ℕ} (hn : 16 ≤ n) :
    expandWords left ((List.range n).map (schedule block)) =
      (List.range (n + left)).map (schedule block) := by
  induction left generalizing n with
  | zero => rfl
  | succ left ih =>
      have hnext : schedule block n =
          rol32 (schedule block (n - 3) ^^^ schedule block (n - 8) ^^^
            schedule block (n - 14) ^^^ schedule block (n - 16)) 1 := by
        rw [schedule, if_neg (by omega), rol32_eq]
      have hgrow : (List.range n).map (schedule block) ++ [schedule block n] =
          (List.range (n + 1)).map (schedule block) := by
        rw [List.range_succ, List.map_append]
        rfl
      have hcount : n + (left + 1) = n + 1 + left := by omega
      simp only [expandWords, List.length_map, List.length_range]
      rw [getD_map_range _ (by omega), getD_map_range _ (by omega),
        getD_map_range _ (by omega), getD_map_range _ (by omega), ← hnext,
        hgrow, ih (by omega), hcount]

theorem roundStep_eq
    {w : List UInt32} {block : List UInt8} {t : ℕ}
    (hw : w.getD t 0 = schedule block t) (v : HashValue) :
    roundStep w v t = Fips180.round (schedule block) v t := by
  have hround : roundFunction t v.b v.c v.d =
      (logical t v.b v.c v.d, constant t) := by
    unfold roundFunction logical constant
    by_cases h20 : t < 20
    · have hle : t ≤ 19 := by omega
      simp [h20, hle, ch_eq_or]
    · by_cases h40 : t < 40
      · have hle : t ≤ 39 := by omega
        have hgt : ¬ t ≤ 19 := by omega
        simp [h20, h40, hle, hgt, parity]
      · by_cases h60 : t < 60
        · have hle : t ≤ 59 := by omega
          have hgt : ¬ t ≤ 19 := by omega
          have hgt' : ¬ t ≤ 39 := by omega
          simp [h20, h40, h60, hle, hgt, hgt', maj_eq_or]
        · have hgt : ¬ t ≤ 19 := by omega
          have hgt' : ¬ t ≤ 39 := by omega
          have hgt'' : ¬ t ≤ 59 := by omega
          simp [h20, h40, h60, hgt, hgt', hgt'', parity]
  unfold roundStep Fips180.round
  rw [hround, hw]
  rfl

theorem hashBlock_eq (h : HashValue) (block : List UInt8) :
    hashBlock h block = compress h block := by
  have hw : expandWords 64 (loadWords block) =
      (List.range 80).map (schedule block) := by
    rw [loadWords_eq, expandWords_eq block 64 (le_refl 16)]
  have hrounds : (List.range 80).foldl
      (roundStep (expandWords 64 (loadWords block))) h =
        (List.range 80).foldl (Fips180.round (schedule block)) h := by
    apply List.foldl_ext
    intro v t ht
    apply roundStep_eq
    rw [hw]
    exact getD_map_range _ (List.mem_range.mp ht)
  simp only [hashBlock, compress, hrounds]

theorem processBlock_eq (s : Sha1) (block : List UInt8) :
    s.processBlock block = { s with h := compress s.h block } := by
  rw [processBlock, hashBlock_eq]

theorem flush_h (s : Sha1) : s.flush.h = compress s.h s.buffer.toList := by
  rw [flush, processBlock_eq]

theorem flush_totalBits (s : Sha1) : s.flush.totalBits = s.totalBits := by
  rw [flush, processBlock]

theorem flush_buffer (s : Sha1) : s.flush.buffer = s.buffer := by
  rw [flush, processBlock]

theorem flush_overrun (s : Sha1) : s.flush.overrun = s.overrun := by
  rw [flush, processBlock]

/-! ## Writing into the buffer -/

def pending (s : Sha1) : List UInt8 := s.buffer.toList.take s.bufferLen

def putAll (s : Sha1) (bytes : List UInt8) : Sha1 := bytes.foldl put s

theorem putAll_spec
    (s : Sha1) (bytes : List UInt8) (hfit : s.bufferLen + bytes.length ≤ 64) :
    (s.putAll bytes).h = s.h ∧ (s.putAll bytes).totalBits = s.totalBits ∧
      (s.putAll bytes).overrun = s.overrun ∧
      (s.putAll bytes).bufferLen = s.bufferLen + bytes.length ∧
      (s.putAll bytes).pending = s.pending ++ bytes := by
  induction bytes generalizing s with
  | nil => simp [putAll, pending]
  | cons b bytes ih =>
      rw [List.length_cons] at hfit
      have hroom : s.bufferLen < 64 := by omega
      have hlen : (s.put b).bufferLen = s.bufferLen + 1 := rfl
      have hflag : (s.put b).overrun = s.overrun := by
        have hin : ¬ 64 ≤ s.bufferLen := by omega
        simp [put, hin]
      have hpending : (s.put b).pending = s.pending ++ [b] := by
        have hlength : s.buffer.toList.length = 64 := Vector.length_toList
        simp only [pending, put, Vector.toList_setIfInBounds, List.take_set]
        rw [List.take_add_one, List.getElem?_eq_getElem (by omega),
          List.set_append_right _ _ (by simp)]
        simp [Nat.le_of_lt hroom]
      obtain ⟨hh, hbits, hover, hnext, htail⟩ :=
        ih (s.put b) (by omega)
      have hcons : s.putAll (b :: bytes) = (s.put b).putAll bytes := rfl
      rw [hcons, hh, hbits, hover, hnext, htail, hpending, hflag, hlen,
        List.length_cons]
      refine ⟨rfl, rfl, rfl, by omega, ?_⟩
      rw [List.append_assoc]
      rfl

theorem pending_length {s : Sha1} (hlen : s.bufferLen ≤ 64) :
    s.pending.length = s.bufferLen := by
  have hlength : s.buffer.toList.length = 64 := Vector.length_toList
  rw [pending, List.length_take]
  omega

theorem buffer_eq_pending {s : Sha1} (hlen : s.bufferLen = 64) :
    s.buffer.toList = s.pending := by
  have hlength : s.buffer.toList.length = 64 := Vector.length_toList
  rw [pending, List.take_of_length_le (by omega)]

theorem flush_pending (s : Sha1) : s.flush.pending = [] := by
  rw [flush, pending, List.take_zero]

theorem topUp_eq
    (s : Sha1) (data : List UInt8) (hlen : s.bufferLen ≤ 64) :
    topUp s data =
      (s.putAll (data.take (64 - s.bufferLen)),
        data.drop (64 - s.bufferLen)) := by
  induction data generalizing s with
  | nil => simp [topUp, putAll]
  | cons b data ih =>
      by_cases hroom : s.bufferLen < 64
      · have hput : (s.put b).bufferLen = s.bufferLen + 1 := rfl
        have hcount : 64 - s.bufferLen = (64 - (s.put b).bufferLen) + 1 := by
          omega
        rw [topUp, if_pos hroom, ih (s.put b) (by omega), hcount, List.take_succ_cons,
          List.drop_succ_cons]
        rfl
      · have hzero : 64 - s.bufferLen = 0 := by omega
        rw [topUp, if_neg hroom, hzero]
        rfl

theorem stash_eq (s : Sha1) (data : List UInt8) : stash s data = s.putAll data := by
  induction data generalizing s with
  | nil => rfl
  | cons b data ih => rw [stash, ih]; rfl

theorem fillZeros_eq (limit : ℕ) (s : Sha1) :
    fillZeros limit s = s.putAll (List.replicate (limit - s.bufferLen) 0) := by
  induction hleft : limit - s.bufferLen generalizing s with
  | zero =>
      rw [fillZeros, if_neg (by omega)]
      rfl
  | succ left ih =>
      have hput : (s.put 0).bufferLen = s.bufferLen + 1 := rfl
      rw [fillZeros, if_pos (by omega), ih (s.put 0) (by omega)]
      rfl

theorem wholeBlocks_eq (s : Sha1) (data : List UInt8) :
    wholeBlocks s data =
      ({ s with h := (absorb 64 compress s.h data).1 },
        (absorb 64 compress s.h data).2) := by
  induction hlength : data.length using Nat.strongRecOn
    generalizing s data with
  | ind length ih =>
      by_cases hlong : 64 ≤ data.length
      · have hdrop : (data.drop 64).length = length - 64 := by
          rw [List.length_drop, hlength]
        rw [wholeBlocks, if_pos hlong, ih (length - 64) (by omega) _ _ hdrop,
          processBlock_eq,
          absorb_of_le 64 compress s.h (by norm_num) hlong]
      · rw [wholeBlocks, if_neg hlong,
          absorb_of_lt 64 compress s.h (by omega)]

/-! ## The invariant of a run of updates -/

/-- The object has been fed `message` since the last `Reset`. -/
structure Absorbed (s : Sha1) (message : List UInt8) : Prop where
  h : s.h = (absorb 64 compress initial message).1
  pending : s.pending = (absorb 64 compress initial message).2
  bufferLen : s.bufferLen = message.length % 64
  totalBits : s.totalBits = UInt64.ofNat (8 * message.length)

theorem reset_absorbed (s : Sha1) : s.reset.Absorbed [] := by
  have hnil : absorb 64 compress initial [] = (initial, []) :=
    absorb_of_lt 64 compress initial (by norm_num)
  constructor
  · rw [hnil]
    rfl
  · rw [hnil]
    simp [pending, reset]
  · rfl
  · rfl

theorem totalBits_step (bits : UInt64) (m n : ℕ)
    (hbits : bits = UInt64.ofNat (8 * m)) :
    bits + UInt64.ofNat n * 8 = UInt64.ofNat (8 * (m + n)) := by
  have height : (8 : UInt64) = UInt64.ofNat 8 := rfl
  rw [hbits, height, ← UInt64.ofNat_mul, ← UInt64.ofNat_add]
  congr 1
  omega

def afterTopUp (s : Sha1) (data : List UInt8) : Sha1 × List UInt8 :=
  if s.bufferLen > 0 then
    let (s, data) := topUp s data
    if s.bufferLen = 64 then (s.flush, data) else (s, data)
  else (s, data)

/-- `total_bits_ += len * 8` -/
def counted (s : Sha1) (len : ℕ) : Sha1 :=
  { s with totalBits := s.totalBits + UInt64.ofNat len * 8 }

theorem update_eq (s : Sha1) (data : List UInt8) :
    s.update data =
      stash
        (wholeBlocks (afterTopUp (counted s data.length) data).1
          (afterTopUp (counted s data.length) data).2).1
        (wholeBlocks (afterTopUp (counted s data.length) data).1
          (afterTopUp (counted s data.length) data).2).2 := rfl

/-- Either the buffer is empty again and nothing was lost, or the input is
used up. -/
theorem afterTopUp_spec {s : Sha1} (hlen : s.bufferLen < 64) (data : List UInt8) :
    ∃ s' rest, afterTopUp s data = (s', rest) ∧
      absorb 64 compress s'.h (s'.pending ++ rest) =
        absorb 64 compress s.h (s.pending ++ data) ∧
      s'.totalBits = s.totalBits ∧ s'.overrun = s.overrun ∧
      (s'.bufferLen = 0 ∨ rest = [] ∧ s'.bufferLen < 64) := by
  by_cases hpos : s.bufferLen > 0
  · have htop := topUp_eq s data (Nat.le_of_lt hlen)
    have hcount : (data.take (64 - s.bufferLen)).length =
        min (64 - s.bufferLen) data.length := List.length_take
    obtain ⟨hh, hbits, hover, hnext, hpending⟩ :=
      putAll_spec s (data.take (64 - s.bufferLen)) (by omega)
    generalize hs' : s.putAll (data.take (64 - s.bufferLen)) = s' at *
    by_cases hfull : s'.bufferLen = 64
    · have hblock : (s.pending ++ data.take (64 - s.bufferLen)).length = 64 := by
        rw [List.length_append, pending_length (Nat.le_of_lt hlen)]
        omega
      have hsplit : s.pending ++ data =
          s.pending ++ data.take (64 - s.bufferLen) ++
            data.drop (64 - s.bufferLen) := by
        rw [List.append_assoc, List.take_append_drop]
      refine ⟨s'.flush, data.drop (64 - s.bufferLen), ?_, ?_, ?_, ?_,
        Or.inl rfl⟩
      · rw [afterTopUp, if_pos hpos, htop]
        simp only [hfull, if_true]
      · rw [flush_pending, List.nil_append, flush_h, hsplit,
          absorb_block 64 compress s.h _ (by norm_num) hblock,
          buffer_eq_pending hfull, hpending, hh]
      · rw [flush_totalBits, hbits]
      · rw [flush_overrun, hover]
    · have hdrop : data.drop (64 - s.bufferLen) = [] :=
        List.drop_of_length_le (by omega)
      have htake : data.take (64 - s.bufferLen) = data :=
        List.take_of_length_le (by omega)
      refine ⟨s', [], ?_, ?_, hbits, hover, Or.inr ⟨rfl, by omega⟩⟩
      · rw [afterTopUp, if_pos hpos, htop, hdrop]
        simp only [hfull, if_false]
      · rw [hh, hpending, htake, List.append_nil]
  · exact ⟨s, data, by rw [afterTopUp, if_neg hpos], rfl, rfl, rfl,
      Or.inl (by omega)⟩

/-- One update, whatever the object was fed before: whole blocks of what was
pending and the new data go into the hash value, the rest stays pending. -/
theorem update_spec {s : Sha1} (hlen : s.bufferLen < 64) (data : List UInt8) :
    (s.update data).h = (absorb 64 compress s.h (s.pending ++ data)).1 ∧
      (s.update data).pending =
        (absorb 64 compress s.h (s.pending ++ data)).2 ∧
      (s.update data).bufferLen = (s.bufferLen + data.length) % 64 ∧
      (s.update data).totalBits =
        s.totalBits + UInt64.ofNat data.length * 8 ∧
      (s.update data).overrun = s.overrun := by
  have hh : (counted s data.length).h = s.h := rfl
  have hpending : (counted s data.length).pending = s.pending := rfl
  have hcover : (counted s data.length).overrun = s.overrun := rfl
  have hcbits : (counted s data.length).totalBits =
      s.totalBits + UInt64.ofNat data.length * 8 := rfl
  have hclen : (counted s data.length).bufferLen < 64 := hlen
  obtain ⟨s', rest, htop, habsorb, hbits, hover, hcase⟩ :=
    afterTopUp_spec hclen data
  have hupdate : s.update data =
      stash (wholeBlocks s' rest).1 (wholeBlocks s' rest).2 := by
    rw [update_eq, htop]
  have htotal : absorb 64 compress s'.h (s'.pending ++ rest) =
      absorb 64 compress s.h (s.pending ++ data) := by
    rw [habsorb, hh, hpending]
  have hleft := absorb_rest_length 64 compress (by norm_num) s.h
    (s.pending ++ data)
  rw [List.length_append, pending_length (Nat.le_of_lt hlen)] at hleft
  generalize hall : absorb 64 compress s.h (s.pending ++ data) = total at *
  -- what `wholeBlocks` leaves to stash, after what the buffer holds
  have hstash : (absorb 64 compress s'.h rest).1 = total.1 ∧
      s'.pending ++ (absorb 64 compress s'.h rest).2 = total.2 ∧
      s'.bufferLen + (absorb 64 compress s'.h rest).2.length =
        total.2.length := by
    rcases hcase with hzero | ⟨hrest, hshort⟩
    · have hempty : s'.pending = [] := by
        rw [Sha1.pending, hzero, List.take_zero]
      rw [hempty, List.nil_append] at htotal
      rw [htotal, hempty, hzero]
      exact ⟨rfl, rfl, Nat.zero_add _⟩
    · have hplen := pending_length (Nat.le_of_lt hshort)
      rw [hrest, List.append_nil,
        absorb_of_lt 64 compress s'.h (by omega)] at htotal
      rw [hrest, absorb_of_lt 64 compress s'.h (by norm_num), ← htotal,
        List.append_nil]
      exact ⟨rfl, rfl, by rw [hplen]; rfl⟩
  obtain ⟨hvalue, htail, hcount⟩ := hstash
  have hmod : (s.bufferLen + data.length) % 64 < 64 :=
    Nat.mod_lt _ (by norm_num)
  have hfit : s'.bufferLen + (absorb 64 compress s'.h rest).2.length ≤ 64 := by
    omega
  rw [hupdate, stash_eq, wholeBlocks_eq]
  obtain ⟨hh', hbits', hover', hlen', hpending'⟩ :=
    putAll_spec { s' with h := (absorb 64 compress s'.h rest).1 } _ hfit
  refine ⟨?_, ?_, ?_, ?_, ?_⟩
  · rw [hh']
    exact hvalue
  · rw [hpending']
    exact htail
  · rw [hlen', ← hleft]
    exact hcount
  · rw [hbits']
    exact hbits.trans hcbits
  · rw [hover']
    exact hover.trans hcover

theorem Absorbed.update
    {s : Sha1} {message : List UInt8} (habs : s.Absorbed message)
    (data : List UInt8) :
    (s.update data).Absorbed (message ++ data) ∧
      (s.update data).overrun = s.overrun := by
  have hlen : s.bufferLen < 64 := by
    rw [habs.bufferLen]
    exact Nat.mod_lt _ (by norm_num)
  obtain ⟨hh, hpending, hcount, hbits, hover⟩ := update_spec hlen data
  have hall : absorb 64 compress s.h (s.pending ++ data) =
      absorb 64 compress initial (message ++ data) := by
    rw [habs.h, habs.pending,
      ← absorb_append 64 compress (by norm_num) initial message data]
  rw [hall] at hh hpending
  refine ⟨⟨hh, hpending, ?_, ?_⟩, hover⟩
  · rw [hcount, habs.bufferLen, Nat.mod_add_mod, List.length_append]
  · rw [hbits, List.length_append]
    exact totalBits_step s.totalBits message.length data.length habs.totalBits

theorem Absorbed.updateAll
    {s : Sha1} {message : List UInt8} (habs : s.Absorbed message)
    (chunks : List (List UInt8)) :
    (s.updateAll chunks).Absorbed (message ++ chunks.flatten) ∧
      (s.updateAll chunks).overrun = s.overrun := by
  induction chunks generalizing s message with
  | nil =>
      rw [List.flatten_nil, List.append_nil]
      exact ⟨habs, rfl⟩
  | cons chunk chunks ih =>
      obtain ⟨hone, hover⟩ := habs.update chunk
      obtain ⟨hall, hover'⟩ := ih hone
      rw [List.append_assoc] at hall
      exact ⟨hall, hover'.trans hover⟩

/-! ## Padding in the buffer -/

theorem putAll_append (s : Sha1) (front back : List UInt8) :
    s.putAll (front ++ back) = (s.putAll front).putAll back :=
  List.foldl_append

theorem putLength_eq (bits : UInt64) (s : Sha1) :
    putLength bits s = s.putAll (lengthBytes bits.toNat) := by
  have hbyte : ∀ i : ℕ, i < 8 →
      ((bits >>> (UInt64.ofNat i * 8)) &&& 0xFF).toUInt8 =
        UInt8.ofNat (bits.toNat / 256 ^ i) :=
    fun i hi => ByteMemory.shiftRight_and_toUInt8 bits hi
  have hlist : ([7, 6, 5, 4, 3, 2, 1, 0] : List UInt64).map
      (fun i => ((bits >>> (i * 8)) &&& 0xFF).toUInt8) =
        lengthBytes bits.toNat := by
    have hrange : List.range 8 = [0, 1, 2, 3, 4, 5, 6, 7] := rfl
    rw [lengthBytes, hrange]
    simp only [List.map_cons, List.map_nil]
    rw [← hbyte 7 (by norm_num), ← hbyte (7 - 1) (by norm_num),
      ← hbyte (7 - 2) (by norm_num), ← hbyte (7 - 3) (by norm_num),
      ← hbyte (7 - 4) (by norm_num), ← hbyte (7 - 5) (by norm_num),
      ← hbyte (7 - 6) (by norm_num), ← hbyte (7 - 7) (by norm_num)]
    rfl
  rw [putLength, putAll, ← hlist, List.foldl_map]

/-- The last block of a padded message; `rest` is what the whole blocks of the
message left over. -/
def lastBlock (rest : List UInt8) (bits : ℕ) : List UInt8 :=
  if rest.length ≤ 55 then
    rest ++ 0x80 :: List.replicate (55 - rest.length) 0 ++ lengthBytes bits
  else List.replicate 56 0 ++ lengthBytes bits

def spillBlock (rest : List UInt8) : List UInt8 :=
  rest ++ 0x80 :: List.replicate (63 - rest.length) 0

theorem absorb_padding
    (h : HashValue) {rest : List UInt8} (hrest : rest.length < 64)
    (bits : ℕ) :
    (absorb 64 compress h (rest ++ (0x80 ::
      List.replicate (zeroBytes rest.length) 0 ++ lengthBytes bits))).1 =
      compress (if rest.length ≤ 55 then h else compress h (spillBlock rest))
        (lastBlock rest bits) := by
  by_cases hshort : rest.length ≤ 55
  · have hzeros : zeroBytes rest.length = 55 - rest.length := by
      unfold zeroBytes
      omega
    have hblock : (lastBlock rest bits).length = 64 := by
      rw [lastBlock, if_pos hshort]
      simp only [List.append_assoc, List.cons_append, List.length_append,
        List.length_cons, List.length_replicate, lengthBytes_length]
      omega
    have hdata : rest ++ (0x80 ::
        List.replicate (zeroBytes rest.length) 0 ++ lengthBytes bits) =
        lastBlock rest bits ++ [] := by
      rw [lastBlock, if_pos hshort, hzeros, List.append_nil, List.append_assoc]
    rw [hdata, absorb_block 64 compress h [] (by norm_num) hblock,
      absorb_of_lt 64 compress _ (by norm_num), if_pos hshort]
  · have hzeros : zeroBytes rest.length = (63 - rest.length) + 56 := by
      unfold zeroBytes
      omega
    have hspill : (spillBlock rest).length = 64 := by
      simp only [spillBlock, List.length_append, List.length_cons,
        List.length_replicate]
      omega
    have hblock : (lastBlock rest bits).length = 64 := by
      rw [lastBlock, if_neg hshort, List.length_append, List.length_replicate,
        lengthBytes_length]
    have hdata : rest ++ (0x80 ::
        List.replicate (zeroBytes rest.length) 0 ++ lengthBytes bits) =
        spillBlock rest ++ (lastBlock rest bits ++ []) := by
      rw [lastBlock, if_neg hshort, hzeros, List.replicate_add, spillBlock]
      simp only [List.append_assoc, List.cons_append, List.append_nil]
    rw [hdata, absorb_block 64 compress h _ (by norm_num) hspill,
      absorb_block 64 compress _ [] (by norm_num) hblock,
      absorb_of_lt 64 compress _ (by norm_num), if_neg hshort]

theorem final_blocks
    {s : Sha1} (hlen : s.bufferLen < 64) :
    ∃ last : Sha1, s.final = (digestOf last.flush.h, last.flush) ∧
      last.h = (if s.pending.length ≤ 55 then s.h
        else compress s.h (spillBlock s.pending)) ∧
      last.buffer.toList = lastBlock s.pending s.totalBits.toNat ∧
      last.overrun = s.overrun := by
  have hplen := pending_length (Nat.le_of_lt hlen)
  by_cases hshort : s.bufferLen ≤ 55
  · have hmark : (s.put 0x80).bufferLen = s.bufferLen + 1 := rfl
    have hone : ¬ (s.put 0x80).bufferLen > 56 := by omega
    have hzeros : 56 - (s.put 0x80).bufferLen = 55 - s.bufferLen := by omega
    obtain ⟨hh, _, hover, hfull, hpending⟩ := putAll_spec s
      (0x80 :: List.replicate (55 - s.bufferLen) 0 ++
        lengthBytes s.totalBits.toNat) (by
        simp only [List.cons_append, List.length_cons, List.length_append,
          List.length_replicate, lengthBytes_length]
        omega)
    refine ⟨_, ?_, ?_, ?_, hover⟩
    · rw [final]
      simp only [if_neg hone, putLength_eq, fillZeros_eq, hzeros]
      rw [putAll_append]
      rfl
    · rw [hh, hplen, if_pos hshort]
    · rw [buffer_eq_pending, hpending, lastBlock, hplen, if_pos hshort,
        List.append_assoc]
      rw [hfull]
      simp only [List.cons_append, List.length_cons, List.length_append,
        List.length_replicate, lengthBytes_length]
      omega
  · have hmark : (s.put 0x80).bufferLen = s.bufferLen + 1 := rfl
    have hone : (s.put 0x80).bufferLen > 56 := by omega
    have hzeros : 64 - (s.put 0x80).bufferLen = 63 - s.bufferLen := by omega
    obtain ⟨hh, hbits, hover, hfull, hpending⟩ := putAll_spec s
      (0x80 :: List.replicate (63 - s.bufferLen) 0) (by
        simp only [List.length_cons, List.length_replicate]
        omega)
    generalize hspill : s.putAll
      (0x80 :: List.replicate (63 - s.bufferLen) 0) = spill at *
    have hbuffer : spill.buffer.toList = spillBlock s.pending := by
      rw [buffer_eq_pending, hpending, spillBlock, hplen]
      rw [hfull]
      simp only [List.length_cons, List.length_replicate]
      omega
    have hstart : spill.flush.bufferLen = 0 := rfl
    obtain ⟨hh', _, hover', hfull', hpending'⟩ := putAll_spec spill.flush
      (List.replicate 56 0 ++ lengthBytes s.totalBits.toNat) (by
        rw [hstart, List.length_append, List.length_replicate,
          lengthBytes_length])
    refine ⟨_, ?_, ?_, ?_, hover'.trans ((flush_overrun spill).trans hover)⟩
    · rw [final]
      simp only [if_pos hone, putLength_eq, fillZeros_eq, hzeros]
      have hput : (s.put 0x80).putAll (List.replicate (63 - s.bufferLen) 0) =
          spill := hspill
      rw [hput, hstart, putAll_append]
    · rw [hh', flush_h, hbuffer, hh, hplen, if_neg hshort]
    · rw [buffer_eq_pending, hpending', flush_pending, lastBlock, hplen,
        if_neg hshort, List.nil_append]
      rw [hfull', hstart, List.length_append, List.length_replicate,
        lengthBytes_length]

theorem mask_toUInt8 (x : UInt32) : (x &&& 0xFF).toUInt8 = x.toUInt8 := by
  have hmask : UInt32.toNat 0xFF = 2 ^ 8 - 1 := rfl
  rw [← UInt8.toNat_inj, UInt32.toNat_toUInt8, UInt32.toNat_toUInt8,
    UInt32.toNat_and, hmask, Nat.and_two_pow_sub_one_eq_mod, Nat.mod_mod]

theorem digestOf_bytes (h : HashValue) : (digestOf h).bytes = output h := by
  simp only [digestOf, output, wordBytes, Fips180.wordBytes, mask_toUInt8]

/-- `Final` after any updates gives the SHA-1 value of the message, while the
bit count fits its 64 bits. -/
theorem Absorbed.final
    {s : Sha1} {message : List UInt8} (habs : s.Absorbed message)
    (hsize : message.length < 2 ^ 61) :
    s.final.1.bytes = sha1 message ∧
      s.final.2.buffer.toList =
        lastBlock (absorb 64 compress initial message).2
          (8 * message.length) ∧
      s.final.2.overrun = s.overrun := by
  have hlen : s.bufferLen < 64 := by
    rw [habs.bufferLen]
    exact Nat.mod_lt _ (by norm_num)
  have hbits : s.totalBits.toNat = 8 * message.length := by
    rw [habs.totalBits, UInt64.toNat_ofNat']
    exact Nat.mod_eq_of_lt (by omega)
  have hrest := absorb_rest_length 64 compress (by norm_num) initial message
  obtain ⟨last, hfinal, hh, hbuffer, hover⟩ := final_blocks hlen
  rw [hbits, habs.pending] at hbuffer
  rw [habs.pending, habs.h] at hh
  have hzeros : zeroBytes message.length =
      zeroBytes (absorb 64 compress initial message).2.length := by
    rw [hrest, zeroBytes, zeroBytes, Nat.mod_mod]
  have hpad : pad message = message ++ (0x80 ::
      List.replicate (zeroBytes (absorb 64 compress initial message).2.length)
        0 ++ lengthBytes (8 * message.length)) := by
    rw [pad, hzeros, List.append_assoc]
  have hsha : sha1 message = output (compress last.h last.buffer.toList) := by
    rw [sha1, hpad, absorb_append 64 compress (by norm_num) initial message,
      absorb_padding _ (by omega), hh, hbuffer]
  refine ⟨?_, ?_, ?_⟩
  · rw [hfinal, digestOf_bytes, flush_h, hsha]
  · rw [hfinal, flush_buffer, hbuffer]
  · rw [hfinal, flush_overrun, hover]

end Sha1

theorem sha1HashRun_absorbed (memory : Vector UInt8 64) (data : List UInt8) :
    ((Sha1.new memory).update data).Absorbed data := by
  have hnew : (Sha1.new memory).Absorbed [] := Sha1.reset_absorbed _
  have hupdate := (hnew.update data).1
  rwa [List.nil_append] at hupdate

theorem sha1Hash_bytes
    (memory : Vector UInt8 64) {data : List UInt8}
    (hsize : data.length < 2 ^ 61) :
    (sha1Hash memory data).bytes = sha1 data :=
  ((sha1HashRun_absorbed memory data).final hsize).1

theorem sha1HashRun_buffer
    (memory : Vector UInt8 64) {data : List UInt8}
    (hsize : data.length < 2 ^ 61) :
    (sha1HashRun memory data).2.buffer.toList =
      Sha1.lastBlock (absorb 64 compress initial data).2 (8 * data.length) :=
  ((sha1HashRun_absorbed memory data).final hsize).2.1

/-! ## Any history, any chunking -/

namespace Sha1

/-- The next write is inside the block buffer, and so was every earlier one. -/
structure InBounds (s : Sha1) : Prop where
  bufferLen : s.bufferLen < 64
  overrun : s.overrun = false

theorem InBounds.call {s : Sha1} (hs : s.InBounds) (c : Call) :
    (s.call c).InBounds := by
  cases c with
  | reset => exact ⟨by norm_num [Sha1.call, reset], hs.overrun⟩
  | update data =>
      obtain ⟨_, _, hcount, _, hover⟩ := update_spec hs.bufferLen data
      refine ⟨?_, hover.trans hs.overrun⟩
      have hlt : (s.bufferLen + data.length) % 64 < 64 :=
        Nat.mod_lt _ (by norm_num)
      rw [← hcount] at hlt
      exact hlt
  | final =>
      obtain ⟨last, hfinal, _, _, hover⟩ := final_blocks hs.bufferLen
      have hstate : s.call .final = last.flush := by
        rw [Sha1.call, hfinal]
      rw [hstate]
      refine ⟨by norm_num [flush], ?_⟩
      rw [flush_overrun, hover]
      exact hs.overrun

theorem InBounds.calls {s : Sha1} (hs : s.InBounds) (history : List Call) :
    (s.calls history).InBounds := by
  induction history generalizing s with
  | nil => exact hs
  | cons c history ih => exact ih (hs.call c)

theorem new_inBounds (memory : Vector UInt8 64) : (new memory).InBounds :=
  ⟨by norm_num [new, reset], rfl⟩

/-- After `Reset`, whatever was called before it, the object hashes the
concatenation of the chunks it is fed, and no write ever leaves the buffer. -/
theorem streaming_is_sha1
    (memory : Vector UInt8 64) (history : List Call)
    (chunks : List (List UInt8)) (hsize : chunks.flatten.length < 2 ^ 61) :
    ((((new memory).calls history).reset.updateAll chunks).final).1.bytes =
        sha1 chunks.flatten ∧
      ((((new memory).calls history).reset.updateAll chunks).final).2.overrun =
        false := by
  have hbefore := (new_inBounds memory).calls history
  obtain ⟨habs, hover⟩ :=
    (reset_absorbed ((new memory).calls history)).updateAll chunks
  rw [List.nil_append] at habs
  obtain ⟨hdigest, _, hover'⟩ := habs.final hsize
  refine ⟨hdigest, ?_⟩
  rw [hover', hover]
  exact hbefore.overrun

/-- An object that was fed and finalized before hashes `abc` in two pieces. -/
theorem streaming_is_sha1_reused :
    ((((new (Vector.replicate 64 0xFF)).calls
        [.update [0x78], .final, .update [0x79]]).reset.updateAll
          [[0x61], [], [0x62, 0x63]]).final).1.bytes =
      sha1 [0x61, 0x62, 0x63] :=
  (streaming_is_sha1 _ _ [[0x61], [], [0x62, 0x63]] (by decide)).1

end Sha1

end PwFilter

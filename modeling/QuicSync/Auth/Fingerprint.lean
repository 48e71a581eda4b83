import QuicSync.Numeral.Hex
import QuicSync.Config
import QuicSync.Protocol.Varint

/-!
# Public-key fingerprints

The fingerprint of a peer's public key, its text form, and the two parsers of the pins that an
operator configures: the one of fingerprints, which also takes the colon-separated form, and the
one of the configuration.

* `Spells` : a text is the fingerprint in hexadecimal digits, with or without colons;
* `Misread` : the texts the parser of fingerprints mistakes: a plus sign in the place of a first
  digit, and a character over the end of a pair;
* `fromStr_ok_iff`, `fromStr_panic_iff` : what the parser makes of every text;
* `pins_agree_iff` : the parsers do what they are for exactly on the texts that are not misread.
-/

namespace QuicSync

/-- A SHA-256 fingerprint of a peer's public key. -/
structure Fingerprint where
  /-- The bytes of the digest. -/
  bytes : Bytes
  /-- A digest has 32 bytes. -/
  size : bytes.length = 32

@[ext] theorem Fingerprint.ext {f g : Fingerprint} (h : f.bytes = g.bytes) : f = g := by
  cases f
  cases g
  simpa using h

instance : DecidableEq Fingerprint := fun _ _ => decidable_of_iff _ Fingerprint.ext_iff.symm

/-- Returned when a configured public-key fingerprint is malformed. -/
inductive FingerprintParseError where
  | malformed
  deriving DecidableEq

/-- Its text. -/
def FingerprintParseError.display : FingerprintParseError → String
  | .malformed => "fingerprint must contain exactly 32 hexadecimal bytes"

namespace Fingerprint

/-- The loop of `fromStr`: the bytes of the pairs from `index` on. -/
def parseBytes (compact : List Char) (index : ℕ) :
    (n : ℕ) → Except (Abort FingerprintParseError) {bytes : Bytes // bytes.length = n}
  | 0 => .ok ⟨[], rfl⟩
  | n + 1 =>
    match Utf8.slice compact (index * 2) (index * 2 + 2) with
    | none => .error .panic
    | some pair =>
      match fromStrRadix (Utf8.bytes pair) with
      | none => .error (.error .malformed)
      | some byte =>
        match parseBytes compact (index + 1) n with
        | .error e => .error e
        | .ok rest => .ok ⟨byte :: rest.1, by rw [List.length_cons, rest.2]⟩

/-- A fingerprint without its separators, once the separators are seen to be in place. -/
def compact (value : List Char) : Except (Abort FingerprintParseError) (List Char) :=
  if Utf8.byteLength value = 95 then
    let groups := value.splitOn ':'
    if groups.length ≠ 32 ∨ ∃ group ∈ groups, Utf8.byteLength group ≠ 2 then
      .error (.error .malformed)
    else .ok groups.flatten
  else if Utf8.byteLength value = 64 then .ok value
  else .error (.error .malformed)

/-- Parse a fingerprint. -/
def fromStr (value : String) : Except (Abort FingerprintParseError) Fingerprint := do
  let compact ← compact value.toList
  let bytes ← parseBytes compact 0 32
  .ok ⟨bytes.1, bytes.2⟩

/-- Two digits of a byte in upper case. -/
def upperHex (byte : UInt8) : List Char :=
  [upperDigits.getD (byte.toNat / 16) '0', upperDigits.getD (byte.toNat % 16) '0']

/-- The text of a fingerprint. -/
def display (f : Fingerprint) : String :=
  String.ofList ([':'].intercalate (f.bytes.map upperHex))

end Fingerprint

namespace Config

/-- The value of a hexadecimal digit. -/
def hexDigit (value : UInt8) : Except QuicSyncError UInt8 :=
  if 48 ≤ value.toNat ∧ value.toNat ≤ 57 then .ok (value - 48)
  else if 97 ≤ value.toNat ∧ value.toNat ≤ 102 then .ok (value - 97 + 10)
  else if 65 ≤ value.toNat ∧ value.toNat ≤ 70 then .ok (value - 65 + 10)
  else .error (invalid "peer pin contains a non-hexadecimal character")

/-- The bytes of `n` pairs of digits; an array that runs out of pairs keeps its zeros. -/
def hexPairs : (n : ℕ) → Bytes → Except QuicSyncError {bytes : Bytes // bytes.length = n}
  | 0, _ => .ok ⟨[], rfl⟩
  | n + 1, a :: b :: rest => do
    let high ← hexDigit a
    let low ← hexDigit b
    let bytes ← hexPairs n rest
    .ok ⟨(high <<< 4 ||| low) :: bytes.1, by rw [List.length_cons, bytes.2]⟩
  | n + 1, _ => .ok ⟨List.replicate (n + 1) 0, List.length_replicate⟩

end Config

/-- A public-key fingerprint configured out of band. -/
structure PeerPin where
  /-- The bytes of the digest. -/
  bytes : Bytes
  /-- A digest has 32 bytes. -/
  size : bytes.length = 32

/-- Parse a configured pin. -/
def PeerPin.parse (value : String) : Except QuicSyncError PeerPin :=
  if Utf8.byteLength value.toList ≠ 64 then
    .error (Config.invalid "peer pin must contain 64 hexadecimal characters")
  else do
    let bytes ← Config.hexPairs 32 (Utf8.bytes value.toList)
    .ok ⟨bytes.1, bytes.2⟩

/-! ### What the parsers are for -/

/-- A text is a sequence of pairs, one after the other or joined by colons. -/
def Joins (value : String) (pairs : List (List Char)) : Prop :=
  value.toList = pairs.flatten ∨ value.toList = [':'].intercalate pairs

/-- A text is a fingerprint in pairs of hexadecimal digits, with or without colons. -/
def Spells (value : String) (f : Fingerprint) : Prop :=
  ∃ pairs, List.Forall₂ HexPair pairs f.bytes ∧ Joins value pairs

/-- What the number parser makes of a pair. -/
def PairReads (pair : List Char) (byte : UInt8) : Prop := HexPair pair byte ∨ PlusPair pair byte

/-- A pair that the number parser takes. -/
def LoosePair (pair : List Char) : Prop := ∃ byte, PairReads pair byte

/-- The texts that the parser of fingerprints mistakes: those of 32 pairs it takes, one of them
with a plus sign, and those of 64 bytes with a character over the end of a pair behind pairs it
takes. -/
def Misread (value : String) : Prop :=
  (∃ pairs, pairs.length = 32 ∧ (∀ pair ∈ pairs, LoosePair pair) ∧
      (∃ pair ∈ pairs, ∃ byte, PlusPair pair byte) ∧ Joins value pairs) ∨
    (Utf8.byteLength value.toList = 64 ∧ ∃ (pairs : List (List Char)) (rest : List Char),
      (∀ pair ∈ pairs, LoosePair pair) ∧ value.toList = pairs.flatten ++ rest ∧
        Utf8.InsideChar rest)

/-- What the parsers of pins are for, at a text: the parser of fingerprints returns, it returns
the fingerprint the text spells and no other, and on 64 bytes the two parsers agree. -/
structure PinsAgree (value : String) : Prop where
  returns : Fingerprint.fromStr value ≠ .error .panic
  accepts : ∀ f, Fingerprint.fromStr value = .ok f ↔ Spells value f
  agrees : Utf8.byteLength value.toList = 64 →
    (∃ f p, Fingerprint.fromStr value = .ok f ∧ PeerPin.parse value = .ok p ∧ f.bytes = p.bytes) ∨
      ∃ e e', Fingerprint.fromStr value = .error (.error e) ∧ PeerPin.parse value = .error e'

/-! ### The pairs of a text -/

theorem PairReads.byteLength {pair : List Char} {byte : UInt8} (h : PairReads pair byte) :
    Utf8.byteLength pair = 2 := by
  rcases h with ⟨c, d, x, y, rfl, hc, hd, -⟩ | ⟨d, y, rfl, hd, -⟩
  · simp [hc.utf8Size_eq, hd.utf8Size_eq]
  · simp [hd.utf8Size_eq]
    rfl

/-- No pair holds a separator. -/
theorem PairReads.colon_notMem {pair : List Char} {byte : UInt8} (h : PairReads pair byte) :
    ':' ∉ pair := by
  rcases h with ⟨c, d, x, y, rfl, hc, hd, -⟩ | ⟨d, y, rfl, hd, -⟩
  · simp [hc.ne_punctuation.2.symm, hd.ne_punctuation.2.symm]
  · simp [hd.ne_punctuation.2.symm]

/-- A pair of digits holds no plus sign. -/
theorem HexPair.plus_notMem {pair : List Char} {byte : UInt8} (h : HexPair pair byte) :
    '+' ∉ pair := by
  obtain ⟨c, d, x, y, rfl, hc, hd, -⟩ := h
  simp [hc.ne_punctuation.1.symm, hd.ne_punctuation.1.symm]

theorem exists_of_forall₂ {R : List Char → UInt8 → Prop} {pairs : List (List Char)}
    {bytes : Bytes} (h : List.Forall₂ R pairs bytes) : ∀ pair ∈ pairs, ∃ byte, R pair byte := by
  induction h with
  | nil => exact fun pair hpair => nomatch hpair
  | cons hread _ ih => exact List.forall_mem_cons.2 ⟨⟨_, hread⟩, ih⟩

theorem loose_of_reads {pairs : List (List Char)} {bytes : Bytes}
    (h : List.Forall₂ PairReads pairs bytes) : ∀ pair ∈ pairs, LoosePair pair :=
  exists_of_forall₂ h

/-- Pairs that can each be read are read together. -/
theorem exists_forall₂_reads {pairs : List (List Char)} (h : ∀ pair ∈ pairs, LoosePair pair) :
    ∃ bytes, List.Forall₂ PairReads pairs bytes := by
  induction pairs with
  | nil => exact ⟨[], .nil⟩
  | cons pair pairs ih =>
    obtain ⟨⟨byte, hbyte⟩, hpairs⟩ := List.forall_mem_cons.1 h
    obtain ⟨bytes, hbytes⟩ := ih hpairs
    exact ⟨byte :: bytes, .cons hbyte hbytes⟩

theorem byteLength_flatten {pairs : List (List Char)}
    (h : ∀ pair ∈ pairs, Utf8.byteLength pair = 2) :
    Utf8.byteLength pairs.flatten = 2 * pairs.length := by
  induction pairs with
  | nil => rfl
  | cons pair pairs ih =>
    obtain ⟨hpair, hpairs⟩ := List.forall_mem_cons.1 h
    rw [List.flatten_cons, Utf8.byteLength_append, hpair, ih hpairs, List.length_cons]
    omega

theorem byteLength_intercalate {pair : List Char} {pairs : List (List Char)}
    (h : ∀ p ∈ pair :: pairs, Utf8.byteLength p = 2) :
    Utf8.byteLength ([':'].intercalate (pair :: pairs)) = 3 * pairs.length + 2 := by
  induction pairs generalizing pair with
  | nil => simpa using h
  | cons next pairs ih =>
    obtain ⟨hpair, hpairs⟩ := List.forall_mem_cons.1 h
    have hcolon : Char.utf8Size ':' = 1 := rfl
    rw [List.intercalate_cons_cons, Utf8.byteLength_append, Utf8.byteLength_append, hpair,
      ih hpairs, Utf8.byteLength_cons, Utf8.byteLength_nil, hcolon, List.length_cons]
    omega

namespace Fingerprint

/-! ### The loop -/

section Loop

variable {groups : List (List Char)} {bytes : Bytes} {n : ℕ}

/-- The pair at hand is the slice behind the ones before it. -/
theorem slice_pair {before tail pair : List Char} {index : ℕ}
    (hbefore : Utf8.byteLength before = index * 2) (hpair : Utf8.byteLength pair = 2) :
    Utf8.slice (before ++ (pair ++ tail)) (index * 2) (index * 2 + 2) = some pair := by
  rw [← hbefore, Utf8.slice_append, ← hpair, Utf8.splitAt_append]
  rfl

/-- The loop reads pairs that it can read. -/
theorem parseBytes_reads (before : List Char) (index : ℕ)
    (hbefore : Utf8.byteLength before = index * 2)
    (hreads : List.Forall₂ PairReads groups bytes) (hn : groups.length = n) :
    ∃ h, parseBytes (before ++ groups.flatten) index n = .ok ⟨bytes, h⟩ := by
  induction hreads generalizing before index n with
  | nil =>
    subst hn
    exact ⟨rfl, rfl⟩
  | @cons pair byte pairs bytes hread hrest ih =>
    subst hn
    have hpair := hread.byteLength
    obtain ⟨hlen, hparse⟩ := ih (before ++ pair) (index + 1)
      (by rw [Utf8.byteLength_append]; omega) rfl
    rw [List.append_assoc] at hparse
    refine ⟨by rw [List.length_cons, List.length_cons, hlen], ?_⟩
    change parseBytes (before ++ (pair ++ pairs.flatten)) index (pairs.length + 1) = _
    rw [parseBytes, slice_pair hbefore hpair]
    simp only [(fromStrRadix_pair_iff hpair).2 hread, hparse]

/-- The loop fails at a pair that it cannot read, if it gets there. -/
theorem parseBytes_malformed (before tail : List Char) (index : ℕ)
    (hbefore : Utf8.byteLength before = index * 2)
    (hgroups : ∀ g ∈ groups, Utf8.byteLength g = 2) (hbad : ¬ ∀ g ∈ groups, LoosePair g)
    (hn : groups.length ≤ n) :
    parseBytes (before ++ (groups.flatten ++ tail)) index n = .error (.error .malformed) := by
  induction groups generalizing before index n with
  | nil => exact absurd (fun g hg => nomatch hg) hbad
  | cons pair pairs ih =>
    obtain ⟨hpair, hpairs⟩ := List.forall_mem_cons.1 hgroups
    obtain ⟨m, rfl⟩ : ∃ m, n = m + 1 := ⟨n - 1, by rw [List.length_cons] at hn; omega⟩
    rw [List.flatten_cons, List.append_assoc, parseBytes, slice_pair hbefore hpair]
    by_cases hloose : LoosePair pair
    · obtain ⟨byte, hread⟩ := hloose
      have hrest := ih (before ++ pair) (index + 1) (n := m)
        (by rw [Utf8.byteLength_append]; omega) hpairs
        (fun hall => hbad (List.forall_mem_cons.2 ⟨⟨byte, hread⟩, hall⟩)) (Nat.le_of_succ_le_succ hn)
      rw [List.append_assoc] at hrest
      simp only [(fromStrRadix_pair_iff hpair).2 hread, hrest]
    · have hnone : fromStrRadix (Utf8.bytes pair) = none :=
        Option.eq_none_iff_forall_ne_some.2 fun byte h =>
          hloose ⟨byte, (fromStrRadix_pair_iff hpair).1 h⟩
      simp only [hnone]

/-- The loop panics at a character over the end of a pair, if it gets there. -/
theorem parseBytes_panic {tail : List Char} (before : List Char) (index : ℕ)
    (hbefore : Utf8.byteLength before = index * 2)
    (hloose : ∀ g ∈ groups, LoosePair g) (hinside : Utf8.InsideChar tail)
    (hn : groups.length < n) :
    parseBytes (before ++ (groups.flatten ++ tail)) index n = .error .panic := by
  induction groups generalizing before index n with
  | nil =>
    obtain ⟨m, rfl⟩ : ∃ m, n = m + 1 := ⟨n - 1, by rw [List.length_nil] at hn; omega⟩
    rw [List.flatten_nil, List.nil_append, parseBytes, ← hbefore, Utf8.slice_append,
      hinside.splitAt_eq_none]
    rfl
  | cons pair pairs ih =>
    obtain ⟨⟨byte, hread⟩, hpairs⟩ := List.forall_mem_cons.1 hloose
    obtain ⟨m, rfl⟩ : ∃ m, n = m + 1 := ⟨n - 1, by rw [List.length_cons] at hn; omega⟩
    have hpair := PairReads.byteLength hread
    have hrest := ih (before ++ pair) (index + 1) (n := m)
      (by rw [Utf8.byteLength_append]; omega) hpairs (Nat.lt_of_succ_lt_succ hn)
    rw [List.append_assoc] at hrest
    rw [List.flatten_cons, List.append_assoc, parseBytes, slice_pair hbefore hpair]
    simp only [(fromStrRadix_pair_iff hpair).2 hread, hrest]

end Loop

/-! ### Every text -/

variable {value : String} {pairs : List (List Char)} {f : Fingerprint}

/-- The separators are in place where they join pairs. -/
theorem compact_joins (hpairs : ∀ pair ∈ pairs, LoosePair pair) (hlen : pairs.length = 32)
    (hjoins : Joins value pairs) : compact value.toList = .ok pairs.flatten := by
  have htwo : ∀ pair ∈ pairs, Utf8.byteLength pair = 2 := fun pair hpair => by
    obtain ⟨byte, hread⟩ := hpairs pair hpair
    exact hread.byteLength
  rcases hjoins with hflat | hcolons
  · have hbytes := byteLength_flatten htwo
    rw [compact, hflat, if_neg (by omega), if_pos (by omega)]
  · obtain ⟨first, rest, rfl⟩ := List.exists_cons_of_ne_nil (l := pairs) (by
      rintro rfl
      cases hlen)
    have hbytes := byteLength_intercalate htwo
    rw [List.length_cons] at hlen
    have hsplit : ([':'].intercalate (first :: rest)).splitOn ':' = first :: rest :=
      List.splitOn_intercalate ':' (fun pair hpair => by
        obtain ⟨byte, hread⟩ := hpairs pair hpair
        exact hread.colon_notMem) (List.cons_ne_nil _ _)
    rw [compact, hcolons, if_pos (by omega), hsplit]
    simp only
    rw [if_neg]
    rintro (hne | ⟨group, hgroup, hne⟩)
    · exact hne (by rw [List.length_cons, hlen])
    · exact hne (htwo group hgroup)

theorem fromStr_of_compact {c : List Char} (h : compact value.toList = .ok c) :
    fromStr value = (parseBytes c 0 32).map fun bytes => ⟨bytes.1, bytes.2⟩ := by
  simp only [fromStr, h, bind, Except.bind]
  cases parseBytes c 0 32 <;> rfl

/-- A text of 32 pairs that can be read is read. -/
theorem fromStr_reads (hreads : List.Forall₂ PairReads pairs f.bytes) (hjoins : Joins value pairs) :
    fromStr value = .ok f := by
  have hlen : pairs.length = 32 := by rw [hreads.length_eq, f.size]
  obtain ⟨h, hparse⟩ := parseBytes_reads [] 0 rfl hreads hlen
  rw [fromStr_of_compact (compact_joins (loose_of_reads hreads) hlen hjoins)]
  rw [List.nil_append] at hparse
  rw [hparse]
  rfl

/-- How the parser ends on a text: it reads 32 pairs, it panics at a character over the end of a
pair, or it returns its error. -/
theorem fromStr_cases (value : String) :
    (∃ (f : Fingerprint) (pairs : _), List.Forall₂ PairReads pairs f.bytes ∧ Joins value pairs) ∨
      (fromStr value = .error .panic ∧ Utf8.byteLength value.toList = 64 ∧
        ∃ (pairs : List (List Char)) (rest : List Char), (∀ pair ∈ pairs, LoosePair pair) ∧
          value.toList = pairs.flatten ++ rest ∧ Utf8.InsideChar rest) ∨
      fromStr value = .error (.error .malformed) := by
  -- pairs in place are read, or one of them is not a number
  have hgroups (groups : List (List Char)) (hcompact : compact value.toList = .ok groups.flatten)
      (hlen : groups.length = 32) (htwo : ∀ g ∈ groups, Utf8.byteLength g = 2)
      (hjoins : Joins value groups) :
      (∃ (f : Fingerprint) (pairs : _), List.Forall₂ PairReads pairs f.bytes ∧ Joins value pairs) ∨
        fromStr value = .error (.error .malformed) := by
    by_cases hloose : ∀ g ∈ groups, LoosePair g
    · obtain ⟨bytes, hreads⟩ := exists_forall₂_reads hloose
      exact Or.inl ⟨⟨bytes, by rw [← hreads.length_eq, hlen]⟩, groups, hreads, hjoins⟩
    · have hparse := parseBytes_malformed [] [] 0 rfl htwo hloose
        (Nat.le_of_eq hlen)
      rw [List.append_nil, List.nil_append] at hparse
      exact Or.inr (by rw [fromStr_of_compact hcompact, hparse]; rfl)
  by_cases h95 : Utf8.byteLength value.toList = 95
  · by_cases hplace : (value.toList.splitOn ':').length ≠ 32 ∨
        ∃ group ∈ value.toList.splitOn ':', Utf8.byteLength group ≠ 2
    · refine Or.inr (Or.inr ?_)
      rw [fromStr, compact, if_pos h95]
      simp only [if_pos hplace]
      rfl
    · have hcompact : compact value.toList = .ok (value.toList.splitOn ':').flatten := by
        rw [compact, if_pos h95]
        simp only [if_neg hplace]
      simp only [not_or, not_not, not_exists, not_and] at hplace
      rcases hgroups _ hcompact hplace.1 hplace.2
        (Or.inr (List.intercalate_splitOn ':').symm) with h | h
      · exact Or.inl h
      · exact Or.inr (Or.inr h)
  · by_cases h64 : Utf8.byteLength value.toList = 64
    · have hcompact : compact value.toList = .ok value.toList := by
        rw [compact, if_neg h95, if_pos h64]
      rcases Utf8.pairs_or_inside 32 h64 with ⟨groups, hlen, htwo, hflat⟩ |
        ⟨groups, rest, hlen, htwo, hflat, hinside⟩
      · rcases hgroups groups (hflat ▸ hcompact) hlen htwo (Or.inl hflat) with h | h
        · exact Or.inl h
        · exact Or.inr (Or.inr h)
      · refine Or.inr ?_
        by_cases hloose : ∀ g ∈ groups, LoosePair g
        · have hparse := parseBytes_panic [] 0 rfl hloose hinside hlen
          rw [List.nil_append, ← hflat] at hparse
          exact Or.inl ⟨by rw [fromStr_of_compact hcompact, hparse]; rfl, h64, groups, rest, hloose,
            hflat, hinside⟩
        · have hparse := parseBytes_malformed [] rest 0 rfl htwo
            hloose hlen.le
          rw [List.nil_append, ← hflat] at hparse
          exact Or.inr (by rw [fromStr_of_compact hcompact, hparse]; rfl)
    · refine Or.inr (Or.inr ?_)
      rw [fromStr, compact, if_neg h95, if_neg h64]
      rfl

/-- The parser returns a fingerprint exactly where it can read it in 32 pairs. -/
theorem fromStr_ok_iff : fromStr value = .ok f ↔
    ∃ pairs, List.Forall₂ PairReads pairs f.bytes ∧ Joins value pairs := by
  constructor
  · intro h
    rcases fromStr_cases value with ⟨g, pairs, hreads, hjoins⟩ | ⟨hpanic, -⟩ | hmalformed
    · have hg := fromStr_reads hreads hjoins
      rw [h] at hg
      cases hg
      exact ⟨pairs, hreads, hjoins⟩
    · rw [h] at hpanic
      cases hpanic
    · rw [h] at hmalformed
      cases hmalformed
  · rintro ⟨pairs, hreads, hjoins⟩
    exact fromStr_reads hreads hjoins

/-- The parser panics exactly at a character over the end of a pair of a text of 64 bytes, behind
pairs it can read. -/
theorem fromStr_panic_iff : fromStr value = .error .panic ↔
    Utf8.byteLength value.toList = 64 ∧ ∃ (pairs : List (List Char)) (rest : List Char),
      (∀ pair ∈ pairs, LoosePair pair) ∧ value.toList = pairs.flatten ++ rest ∧
        Utf8.InsideChar rest := by
  constructor
  · intro h
    rcases fromStr_cases value with ⟨g, pairs, hreads, hjoins⟩ | ⟨-, hpanic⟩ | hmalformed
    · rw [fromStr_reads hreads hjoins] at h
      cases h
    · exact hpanic
    · rw [h] at hmalformed
      cases hmalformed
  · rintro ⟨h64, pairs, rest, hloose, hflat, hinside⟩
    have htwo : ∀ pair ∈ pairs, Utf8.byteLength pair = 2 := fun pair hpair => by
      obtain ⟨byte, hread⟩ := hloose pair hpair
      exact hread.byteLength
    have hcompact : compact value.toList = .ok value.toList := by
      rw [compact, if_neg (by omega), if_pos h64]
    have hlen : pairs.length < 32 := by
      have hrest : 2 < Utf8.byteLength rest := by
        rcases hinside with ⟨c, s, rfl, hc⟩ | ⟨c, d, s, rfl, hc, hd⟩
        · rw [Utf8.byteLength_cons]
          omega
        · rw [Utf8.byteLength_cons, Utf8.byteLength_cons]
          omega
      rw [hflat, Utf8.byteLength_append, byteLength_flatten htwo] at h64
      omega
    have hparse := parseBytes_panic [] 0 rfl hloose hinside hlen
    rw [List.nil_append, ← hflat] at hparse
    rw [fromStr_of_compact hcompact, hparse]
    rfl

end Fingerprint

/-! ### The parser of the configuration -/

namespace Config

theorem hexDigit_eq_ok_iff {b x : UInt8} : hexDigit b = .ok x ↔ toDigit b = some x.toNat := by
  have hall : ∀ n < 256, toDigit (UInt8.ofNat n) =
      (hexDigit (UInt8.ofNat n)).toOption.map UInt8.toNat := by
    decide +kernel
  have hb := hall b.toNat b.toNat_lt
  rw [UInt8.ofNat_toNat] at hb
  rw [hb]
  cases hexDigit b with
  | error e => exact iff_of_false (fun h => nomatch h) fun h => nomatch h
  | ok y => simp [Except.toOption, UInt8.toNat_inj]

/-- The two halves of a byte. -/
theorem toNat_halves {high low : UInt8} (hh : high.toNat < 16) (hl : low.toNat < 16) :
    (high <<< 4 ||| low).toNat = 16 * high.toNat + low.toNat := by
  have hall : ∀ x < 16, ∀ y < 16,
      (UInt8.ofNat x <<< 4 ||| UInt8.ofNat y).toNat = 16 * x + y := by
    decide
  have := hall _ hh _ hl
  rwa [UInt8.ofNat_toNat, UInt8.ofNat_toNat] at this

/-- Two digits and what follows them. -/
theorem hexPairs_cons_cons {n : ℕ} {a b : UInt8} {rest : Bytes}
    {r : {bytes : Bytes // bytes.length = n + 1}} :
    hexPairs (n + 1) (a :: b :: rest) = .ok r ↔
      ∃ x y byte bytes, toDigit a = some x ∧ toDigit b = some y ∧ byte.toNat = 16 * x + y ∧
        hexPairs n rest = .ok bytes ∧ r.1 = byte :: bytes.1 := by
  simp only [hexPairs, bind_eq_ok_iff, hexDigit_eq_ok_iff]
  constructor
  · rintro ⟨high, hhigh, low, hlow, bytes, hbytes, heq⟩
    cases heq
    exact ⟨_, _, _, bytes, hhigh, hlow, toNat_halves (toDigit_lt hhigh) (toDigit_lt hlow), hbytes,
      rfl⟩
  · rintro ⟨x, y, byte, bytes, hx, hy, hbyte, hbytes, hr⟩
    have hxlt := toDigit_lt hx
    have hylt := toDigit_lt hy
    have htoNat {n : ℕ} (hn : n < 16) : (UInt8.ofNat n).toNat = n := by
      rw [UInt8.toNat_ofNat']
      omega
    refine ⟨UInt8.ofNat x, by rw [htoNat hxlt]; exact hx, UInt8.ofNat y,
      by rw [htoNat hylt]; exact hy, bytes, hbytes, ?_⟩
    congr 1
    apply Subtype.ext
    rw [hr]
    refine congrArg (· :: bytes.1) ?_
    rw [← UInt8.toNat_inj, toNat_halves (by rwa [htoNat hxlt]) (by rwa [htoNat hylt]),
      htoNat hxlt, htoNat hylt, hbyte]

/-- No text of pairs of digits starts with a character of several bytes. -/
theorem not_hexPairs_of_first {c : Char} {s : List Char} {bytes : Bytes} (hc : c.utf8Size ≠ 1) :
    ¬ ∃ pairs, List.Forall₂ HexPair pairs bytes ∧ c :: s = pairs.flatten := by
  rintro ⟨pairs, hpairs, heq⟩
  cases hpairs with
  | nil => cases heq
  | cons hpair hrest =>
    obtain ⟨c', d', x, y, rfl, hx, -⟩ := hpair
    obtain ⟨rfl, -⟩ := List.cons.inj heq
    exact hc hx.utf8Size_eq

/-- No text of pairs of digits has a character of several bytes in the second place. -/
theorem not_hexPairs_of_second {c d : Char} {s : List Char} {bytes : Bytes}
    (hd : d.utf8Size ≠ 1) :
    ¬ ∃ pairs, List.Forall₂ HexPair pairs bytes ∧ c :: d :: s = pairs.flatten := by
  rintro ⟨pairs, hpairs, heq⟩
  cases hpairs with
  | nil => cases heq
  | cons hpair hrest =>
    obtain ⟨c', d', x, y, rfl, -, hy, -⟩ := hpair
    obtain ⟨-, htail⟩ := List.cons.inj heq
    obtain ⟨rfl, -⟩ := List.cons.inj htail
    exact hd hy.utf8Size_eq

/-- A text of `2 * n` bytes is taken exactly where it is `n` pairs of digits. -/
theorem hexPairs_ok_iff {n : ℕ} {s : List Char} (h : Utf8.byteLength s = 2 * n)
    {r : {bytes : Bytes // bytes.length = n}} :
    hexPairs n (Utf8.bytes s) = .ok r ↔
      ∃ pairs, List.Forall₂ HexPair pairs r.1 ∧ s = pairs.flatten := by
  induction n generalizing s with
  | zero =>
    obtain ⟨bytes, hbytes⟩ := r
    obtain rfl := List.length_eq_zero_iff.1 hbytes
    obtain rfl : s = [] := by
      cases s with
      | nil => rfl
      | cons c s =>
        have := c.utf8Size_pos
        rw [Utf8.byteLength_cons] at h
        omega
    exact iff_of_true rfl ⟨[], .nil, rfl⟩
  | succ n ih =>
    cases s with
    | nil => cases h
    | cons c s =>
      have hcpos := c.utf8Size_pos
      rw [Utf8.byteLength_cons] at h
      by_cases hc : c.utf8Size = 1
      · cases s with
        | nil =>
          rw [Utf8.byteLength_nil] at h
          omega
        | cons d s =>
          rw [Utf8.byteLength_cons] at h
          rw [Utf8.bytes_cons, Utf8.utf8EncodeChar_ascii (Utf8.toNat_lt hc), Utf8.bytes_cons]
          by_cases hd : d.utf8Size = 1
          · rw [Utf8.utf8EncodeChar_ascii (Utf8.toNat_lt hd)]
            simp only [List.cons_append, List.nil_append, hexPairs_cons_cons,
              toDigit_ascii (Utf8.toNat_lt hc), toDigit_ascii (Utf8.toNat_lt hd)]
            constructor
            · rintro ⟨x, y, byte, bytes, hx, hy, hbyte, hbytes, hr⟩
              obtain ⟨pairs, hpairs, rfl⟩ := (ih (by omega)).1 hbytes
              rw [hr]
              exact ⟨[c, d] :: pairs, .cons ⟨c, d, x, y, rfl, hx, hy, hbyte⟩ hpairs, rfl⟩
            · rintro ⟨pairs, hpairs, heq⟩
              obtain ⟨bytes, hbytes⟩ := r
              cases hpairs with
              | nil => cases heq
              | cons hpair hrest =>
                obtain ⟨c', d', x, y, rfl, hx, hy, hbyte⟩ := hpair
                simp only [List.flatten_cons, List.cons_append, List.nil_append,
                  List.cons.injEq] at heq
                obtain ⟨rfl, rfl, rfl⟩ := heq
                exact ⟨x, y, _, ⟨_, Nat.succ.inj hbytes⟩, hx, hy, hbyte,
                  (ih (by omega)).2 ⟨_, hrest, rfl⟩, rfl⟩
          · -- the second byte starts a longer character
            obtain ⟨b, more, hencode, hb⟩ := Utf8.head_utf8EncodeChar hd
            rw [hencode]
            refine iff_of_false ?_ ?_
            · simp only [List.cons_append, List.nil_append, hexPairs_cons_cons,
                toDigit_eq_none hb]
              rintro ⟨x, y, byte, bytes, -, hy, -⟩
              cases hy
            · exact not_hexPairs_of_second hd
      · -- the first byte starts a longer character
        obtain ⟨b, more, hencode, hb⟩ := Utf8.head_utf8EncodeChar hc
        have hlen := String.length_utf8EncodeChar c
        rw [hencode, List.length_cons] at hlen
        obtain ⟨b', more', rfl⟩ := List.exists_cons_of_ne_nil (l := more) (by
          rintro rfl
          exact hc hlen.symm)
        rw [Utf8.bytes_cons, hencode]
        refine iff_of_false ?_ ?_
        · simp only [List.cons_append, hexPairs_cons_cons, toDigit_eq_none hb]
          rintro ⟨x, y, byte, bytes, hx, -⟩
          cases hx
        · exact not_hexPairs_of_first hc

end Config

/-- The parser of the configuration takes a text exactly where it is 32 pairs of digits. -/
theorem PeerPin.parse_ok_iff {value : String} {p : PeerPin} : PeerPin.parse value = .ok p ↔
    ∃ pairs, List.Forall₂ HexPair pairs p.bytes ∧ value.toList = pairs.flatten := by
  unfold PeerPin.parse
  by_cases h64 : Utf8.byteLength value.toList = 64
  · rw [if_neg (not_not.2 h64), bind_eq_ok_iff]
    constructor
    · rintro ⟨bytes, hbytes, hp⟩
      cases hp
      exact (Config.hexPairs_ok_iff h64).1 hbytes
    · intro h
      exact ⟨⟨p.bytes, p.size⟩, (Config.hexPairs_ok_iff h64).2 h, rfl⟩
  · rw [if_pos h64]
    refine iff_of_false (fun h => nomatch h) ?_
    rintro ⟨pairs, hpairs, heq⟩
    have hreads : List.Forall₂ PairReads pairs p.bytes := hpairs.imp fun _ _ h => Or.inl h
    have htwo : ∀ pair ∈ pairs, Utf8.byteLength pair = 2 := fun pair hpair => by
      obtain ⟨byte, hread⟩ := loose_of_reads hreads pair hpair
      exact hread.byteLength
    rw [heq, byteLength_flatten htwo, hpairs.length_eq, p.size] at h64
    exact h64 rfl

/-! ### The text form -/

theorem hexPair_upperHex (byte : UInt8) : HexPair (Fingerprint.upperHex byte) byte := by
  have hall : ∀ x < 16, upperDigits[x]? = some (upperDigits.getD x '0') := by decide
  have hb := byte.toNat_lt
  exact ⟨_, _, byte.toNat / 16, byte.toNat % 16, rfl, Or.inr (hall _ (by omega)),
    Or.inr (hall _ (by omega)), by omega⟩

theorem hexPair_lowerHex (byte : UInt8) :
    HexPair ((Fingerprint.upperHex byte).map Char.toLower) byte := by
  have hall : ∀ x < 16, lowerDigits[x]? = some (upperDigits.getD x '0').toLower := by decide
  have hb := byte.toNat_lt
  exact ⟨_, _, byte.toNat / 16, byte.toNat % 16, rfl, Or.inl (hall _ (by omega)),
    Or.inl (hall _ (by omega)), by omega⟩

theorem forall₂_map_hexPair {write : UInt8 → List Char} (h : ∀ byte, HexPair (write byte) byte)
    (bytes : Bytes) : List.Forall₂ HexPair (bytes.map write) bytes := by
  induction bytes with
  | nil => exact .nil
  | cons byte bytes ih => exact .cons (h byte) ih

/-- The text form without its colons. -/
theorem filter_intercalate {pairs : List (List Char)} (h : ∀ pair ∈ pairs, ':' ∉ pair) :
    ([':'].intercalate pairs).filter (· ≠ ':') = pairs.flatten := by
  have hkeep {pair : List Char} (hpair : ':' ∉ pair) : pair.filter (· ≠ ':') = pair :=
    List.filter_eq_self.2 fun c hc => by
      rw [decide_eq_true_eq]
      rintro rfl
      exact hpair hc
  induction pairs with
  | nil => rfl
  | cons pair pairs ih =>
    obtain ⟨hpair, hpairs⟩ := List.forall_mem_cons.1 h
    cases pairs with
    | nil => simpa using hkeep hpair
    | cons next pairs =>
      have hcolon : [':'].filter (· ≠ ':') = [] := rfl
      rw [List.intercalate_cons_cons, List.filter_append, List.filter_append, ih hpairs,
        hkeep hpair, hcolon, List.append_nil, List.flatten_cons (l := pair)]

theorem Fingerprint.fromStr_spells {value : String} {f : Fingerprint} (h : Spells value f) :
    Fingerprint.fromStr value = .ok f := by
  obtain ⟨pairs, hpairs, hjoins⟩ := h
  exact Fingerprint.fromStr_reads (hpairs.imp fun _ _ h => Or.inl h) hjoins

/-- The text form of a fingerprint without its colons. -/
def Fingerprint.plain (f : Fingerprint) : List Char := f.display.toList.filter (· ≠ ':')

theorem Fingerprint.plain_eq (f : Fingerprint) :
    f.plain = (f.bytes.map Fingerprint.upperHex).flatten := by
  rw [Fingerprint.plain, Fingerprint.display, String.toList_ofList]
  refine filter_intercalate fun pair hpair => ?_
  obtain ⟨byte, -, rfl⟩ := List.mem_map.1 hpair
  exact PairReads.colon_notMem (Or.inl (hexPair_upperHex byte))

/-- A fingerprint is read back from its text form, and from that form without its colons in
either case. -/
structure RoundTrips (f : Fingerprint) : Prop where
  display : Fingerprint.fromStr f.display = .ok f
  upper : Fingerprint.fromStr (String.ofList f.plain) = .ok f
  lower : Fingerprint.fromStr (String.ofList (f.plain.map Char.toLower)) = .ok f

theorem roundTrips (f : Fingerprint) : RoundTrips f where
  display := Fingerprint.fromStr_spells ⟨f.bytes.map Fingerprint.upperHex,
    forall₂_map_hexPair hexPair_upperHex f.bytes, Or.inr String.toList_ofList⟩
  upper := by
    refine Fingerprint.fromStr_spells ⟨f.bytes.map Fingerprint.upperHex,
      forall₂_map_hexPair hexPair_upperHex f.bytes, Or.inl ?_⟩
    rw [String.toList_ofList, Fingerprint.plain_eq]
  lower := by
    refine Fingerprint.fromStr_spells
      ⟨f.bytes.map fun byte => (Fingerprint.upperHex byte).map Char.toLower,
        forall₂_map_hexPair hexPair_lowerHex f.bytes, Or.inl ?_⟩
    rw [String.toList_ofList, Fingerprint.plain_eq, List.map_flatten, List.map_map]
    rfl

/-! ### The texts that are misread -/

/-- The characters of a text of pairs, but for its separators, are those of the pairs. -/
theorem Joins.mem_iff {value : String} {pairs : List (List Char)} (h : Joins value pairs)
    {c : Char} (hc : c ≠ ':') : c ∈ value.toList ↔ ∃ pair ∈ pairs, c ∈ pair := by
  rcases h with h | h
  · rw [h, List.mem_flatten]
  · rw [h]
    clear h
    induction pairs with
    | nil => simp
    | cons pair pairs ih =>
      cases pairs with
      | nil => simp
      | cons next pairs =>
        rw [List.intercalate_cons_cons, List.mem_append, List.mem_append, ih]
        simp [hc]

/-- A text of pairs of digits holds no plus sign. -/
theorem Spells.plus_notMem {value : String} {f : Fingerprint} (h : Spells value f) :
    '+' ∉ value.toList := by
  obtain ⟨pairs, hpairs, hjoins⟩ := h
  rw [hjoins.mem_iff (by decide)]
  rintro ⟨pair, hpair, hplus⟩
  obtain ⟨byte, hhex⟩ := exists_of_forall₂ hpairs pair hpair
  exact hhex.plus_notMem hplus

/-- On a text that is not misread, the pairs that are read are pairs of digits. -/
theorem forall₂_hexPair {value : String} {pairs : List (List Char)} {bytes : Bytes}
    (hmisread : ¬ Misread value) (hreads : List.Forall₂ PairReads pairs bytes)
    (hlen : pairs.length = 32) (hjoins : Joins value pairs) :
    List.Forall₂ HexPair pairs bytes := by
  have hplain : ∀ pair ∈ pairs, ∀ byte, ¬ PlusPair pair byte := fun pair hpair byte hplus =>
    hmisread (Or.inl ⟨pairs, hlen, loose_of_reads hreads, ⟨pair, hpair, byte, hplus⟩, hjoins⟩)
  clear hlen hjoins
  induction hreads with
  | nil => exact .nil
  | cons hread _ ih =>
    obtain ⟨hpair, hpairs⟩ := List.forall_mem_cons.1 hplain
    exact .cons (hread.resolve_right (hpair _)) (ih hpairs)

/-- A text of 64 bytes that spells a fingerprint has no separators. -/
theorem Spells.flat {value : String} {f : Fingerprint} (h : Spells value f)
    (h64 : Utf8.byteLength value.toList = 64) :
    ∃ pairs, List.Forall₂ HexPair pairs f.bytes ∧ value.toList = pairs.flatten := by
  obtain ⟨pairs, hpairs, hflat | hcolons⟩ := h
  · exact ⟨pairs, hpairs, hflat⟩
  · have hlen : pairs.length = 32 := by rw [hpairs.length_eq, f.size]
    have htwo : ∀ pair ∈ pairs, Utf8.byteLength pair = 2 := fun pair hpair => by
      obtain ⟨byte, hhex⟩ := exists_of_forall₂ hpairs pair hpair
      exact PairReads.byteLength (Or.inl hhex)
    obtain ⟨first, rest, rfl⟩ := List.exists_cons_of_ne_nil (l := pairs) (by
      rintro rfl
      cases hlen)
    rw [hcolons, byteLength_intercalate htwo] at h64
    rw [List.length_cons] at hlen
    omega

theorem pinsAgree_of_not_misread {value : String} (h : ¬ Misread value) : PinsAgree value := by
  have haccepts (f : Fingerprint) : Fingerprint.fromStr value = .ok f ↔ Spells value f := by
    constructor
    · intro hok
      obtain ⟨pairs, hreads, hjoins⟩ := Fingerprint.fromStr_ok_iff.1 hok
      have hlen : pairs.length = 32 := by rw [hreads.length_eq, f.size]
      exact ⟨pairs, forall₂_hexPair h hreads hlen hjoins, hjoins⟩
    · exact Fingerprint.fromStr_spells
  have hreturns : Fingerprint.fromStr value ≠ .error .panic := fun hpanic =>
    h (Or.inr (Fingerprint.fromStr_panic_iff.1 hpanic))
  refine ⟨hreturns, haccepts, fun h64 => ?_⟩
  cases hfrom : Fingerprint.fromStr value with
  | ok f =>
    have hparse : PeerPin.parse value = .ok ⟨f.bytes, f.size⟩ :=
      PeerPin.parse_ok_iff.2 (((haccepts f).1 hfrom).flat h64)
    exact Or.inl ⟨f, _, rfl, hparse, rfl⟩
  | error e =>
    refine Or.inr ?_
    cases hparse : PeerPin.parse value with
    | ok p =>
      -- what the other parser takes is spelled, so it is taken here
      obtain ⟨pairs, hpairs, hflat⟩ := PeerPin.parse_ok_iff.1 hparse
      have hspells : Spells value ⟨p.bytes, p.size⟩ := ⟨pairs, hpairs, Or.inl hflat⟩
      rw [(haccepts _).2 hspells] at hfrom
      cases hfrom
    | error e' =>
      cases e with
      | error e => exact ⟨e, e', rfl, rfl⟩
      | panic => exact absurd hfrom hreturns

theorem not_misread_of_pinsAgree {value : String} (h : PinsAgree value) : ¬ Misread value := by
  rintro (⟨pairs, hlen, hloose, ⟨pair, hpair, byte, hplus⟩, hjoins⟩ | hpanic)
  · obtain ⟨bytes, hreads⟩ := exists_forall₂_reads hloose
    have hsize : bytes.length = 32 := by rw [← hreads.length_eq, hlen]
    have hok : Fingerprint.fromStr value = .ok ⟨bytes, hsize⟩ :=
      Fingerprint.fromStr_reads hreads hjoins
    refine ((h.accepts _).1 hok).plus_notMem ?_
    rw [hjoins.mem_iff (by decide)]
    obtain ⟨d, y, rfl, -⟩ := hplus
    exact ⟨_, hpair, List.mem_cons_self⟩
  · exact h.returns (Fingerprint.fromStr_panic_iff.2 hpanic)

/-- The parsers of pins do what they are for exactly on the texts that are not misread; every
fingerprint is read back from its text forms. -/
theorem pins_agree_iff (value : String) (f : Fingerprint) :
    PinsAgree value ∧ RoundTrips f ↔ ¬ Misread value :=
  ⟨fun h => not_misread_of_pinsAgree h.1, fun h => ⟨pinsAgree_of_not_misread h, roundTrips f⟩⟩

/-- A pin of 32 plus signs and zeros. -/
def plusPin : String := String.ofList (List.replicate 32 ['+', '0']).flatten

/-- A pin of 64 bytes whose second character takes two of them. -/
def accentPin : String := String.ofList ('0' :: 'é' :: List.replicate 61 '0')

theorem plusPin_reads : ∃ f, Fingerprint.fromStr plusPin = .ok f := by
  have hloose : ∀ pair ∈ List.replicate 32 ['+', '0'], LoosePair pair := fun pair hpair => by
    rw [List.eq_of_mem_replicate hpair]
    exact ⟨0, Or.inr ⟨'0', 0, rfl, by decide, rfl⟩⟩
  obtain ⟨bytes, hreads⟩ := exists_forall₂_reads hloose
  have hsize : bytes.length = 32 := by rw [← hreads.length_eq, List.length_replicate]
  have hjoins : Joins plusPin (List.replicate 32 ['+', '0']) := Or.inl String.toList_ofList
  exact ⟨⟨bytes, hsize⟩, Fingerprint.fromStr_reads hreads hjoins⟩

theorem accentPin_panics : Fingerprint.fromStr accentPin = .error .panic := by
  have htoList : accentPin.toList = '0' :: 'é' :: List.replicate 61 '0' := String.toList_ofList
  rw [Fingerprint.fromStr_panic_iff, htoList]
  refine ⟨by decide, [], _, (fun pair hpair => nomatch hpair), (List.nil_append _).symm, ?_⟩
  exact Or.inr ⟨'0', 'é', List.replicate 61 '0', rfl, rfl, by decide⟩

/-- The parser of fingerprints takes pairs of a plus sign and a digit, and panics at a character
over the end of a pair. -/
theorem pins_disagree :
    ((∃ f, Fingerprint.fromStr plusPin = .ok f) ∧ ¬ PinsAgree plusPin) ∧
      Fingerprint.fromStr accentPin = .error .panic ∧ ¬ PinsAgree accentPin := by
  refine ⟨⟨plusPin_reads, fun h => ?_⟩, accentPin_panics, fun h => h.returns accentPin_panics⟩
  obtain ⟨f, hf⟩ := plusPin_reads
  have htoList : plusPin.toList = (List.replicate 32 ['+', '0']).flatten := String.toList_ofList
  refine ((h.accepts f).1 hf).plus_notMem ?_
  rw [htoList]
  decide

end QuicSync

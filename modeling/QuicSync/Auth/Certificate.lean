import QuicSync.Auth.Der
import QuicSync.Auth.Fingerprint
import QuicSync.Effect.Fallible

/-!
# Certificates

Where a certificate holds the public key that a peer is known by: the element behind the optional
version and five further elements.  SHA-256 and the signature scheme are parameters.

* `IsCertificate` : the byte strings that hold a given element there;
* `fingerprint_certificate_iff` : the walker of the program finds the public key element exactly
  in these, and finds the key of every certificate the program writes.
-/

namespace QuicSync

/-- SHA-256. -/
abbrev Sha256 := Bytes → {digest : Bytes // digest.length = 32}

/-- The signature scheme of identities, as the library provides it. -/
structure Ed25519 where
  /-- A private key with its public key. -/
  KeyPair : Type
  fromPkcs8 : Bytes → Option KeyPair
  publicKey : KeyPair → Bytes
  sign : KeyPair → Bytes → Bytes

section Parser

variable (sha256 : Sha256)

def fingerprintSpki (spki : Bytes) : Fingerprint := ⟨(sha256 spki).1, (sha256 spki).2⟩

/-- What is left behind `n` elements. -/
def skipElements : ℕ → Bytes → Option Bytes
  | 0, tbs => some tbs
  | n + 1, tbs => do
    let (_, _, rest) ← derValue tbs
    skipElements n rest

/-- What is left behind the version, if there is one. -/
def skipVersion (tbs : Bytes) : Option Bytes :=
  if tbs.head? = some 0xa0 then skipElements 1 tbs else some tbs

/-- The fingerprint of the public key in a certificate. -/
def fingerprintCertificate (certificate : Bytes) : Option Fingerprint := do
  let (certificateTag, certificateValue, remaining) ← derValue certificate
  if certificateTag ≠ 0x30 ∨ remaining ≠ [] then none
  else
    let (tbsTag, tbs, _) ← derValue certificateValue
    if tbsTag ≠ 0x30 then none
    else
      let tbs ← skipVersion tbs
      -- serial, signature, issuer, validity and subject
      let spkiStart ← skipElements 5 tbs
      let (spkiTag, _, spkiRemaining) ← derValue spkiStart
      if spkiTag ≠ 0x30 then none
      else
        let spkiLength := spkiStart.length - spkiRemaining.length
        some (fingerprintSpki sha256 (spkiStart.take spkiLength))

end Parser

/-! ### The certificates the program writes -/

def ed25519Algorithm : Bytes := [0x30, 0x05, 0x06, 0x03, 0x2b, 0x65, 0x70]

def emptyName : Bytes := [0x30, 0x00]

def validity : Bytes :=
  [0x30, 0x1e, 0x17, 0x0d] ++ ascii "250101000000Z" ++ [0x17, 0x0d] ++ ascii "491231235959Z"

/-- An error of this module. -/
def configurationError (diagnostic : String) : QuicSyncError :=
  QuicSyncError.new .invalidConfiguration none (.text diagnostic)

def ed25519Spki (publicKey : Bytes) : Bytes :=
  derSequence [ed25519Algorithm, der 0x03 (0 :: publicKey)]

/-- The random bytes of a serial number as a positive integer. -/
def positiveSerial : Bytes → Bytes
  | [] => []
  | b :: bs => (if b &&& 0x7f = 0 then 1 else b &&& 0x7f) :: bs

/-- The part of a certificate that is signed. -/
def tbsCertificate (publicKey serial : Bytes) : Bytes :=
  derSequence [der 0xa0 (der 0x02 [2]), der 0x02 serial, ed25519Algorithm, emptyName, validity,
    emptyName, ed25519Spki publicKey]

/-- A certificate with a given signature. -/
def certificateOf (publicKey serial signature : Bytes) : Bytes :=
  derSequence [tbsCertificate publicKey serial, ed25519Algorithm, der 0x03 (0 :: signature)]

section Identity

variable (ring : Ed25519) (sha256 : Sha256)

/-- A certificate for a key pair; `random` is what the system's generator fills the serial with,
if it does. -/
def selfSignedCertificate (keyPair : ring.KeyPair) (random : Option Bytes) :
    Except QuicSyncError Bytes :=
  match random with
  | none => .error (configurationError "generate certificate serial number")
  | some serial =>
    let serial := positiveSerial serial
    let publicKey := ring.publicKey keyPair
    let signature := ring.sign keyPair (tbsCertificate publicKey serial)
    .ok (certificateOf publicKey serial signature)

/-- A locally persisted certificate and private key. -/
structure Identity where
  certificate : Bytes
  privateKey : Bytes
  fingerprint : Fingerprint
  deriving DecidableEq

/-- An identity from its two files. -/
def Identity.fromDer (certificate privateKey : Bytes) : Except QuicSyncError Identity :=
  match ring.fromPkcs8 privateKey with
  | none => .error (configurationError "parse identity private key")
  | some keyPair =>
    match fingerprintCertificate sha256 certificate with
    | none => .error (configurationError "parse identity certificate")
    | some certificateFingerprint =>
      let keyFingerprint := fingerprintSpki sha256 (ed25519Spki (ring.publicKey keyPair))
      if certificateFingerprint ≠ keyFingerprint then
        .error (configurationError "identity certificate does not match identity private key")
      else .ok ⟨certificate, privateKey, keyFingerprint⟩

/-- The two files of an identity, where they exist. -/
structure IdentityFiles where
  certificate : Option Bytes
  privateKey : Option Bytes
  deriving DecidableEq

/-- How the system fails to create a file, or to persist what is written to it. -/
inductive WriteFault where
  | create (error : Posix.Errno)
  | persist (error : Posix.Errno) (written : Bytes)

/-- What the system answers while an identity is created. -/
structure Creation where
  /-- A generated key. -/
  pkcs8 : Option Bytes
  /-- The random bytes of the serial number. -/
  serial : Option Bytes
  keyFault : Option WriteFault
  certificateFault : Option WriteFault

def identityError (action : String) (error : Posix.Errno) : QuicSyncError :=
  QuicSyncError.new .invalidConfiguration none (.system (action ++ ": ") error)

/-- Write a file that does not exist yet; the file that is there afterwards. -/
def writeNewFile (create persist : String) (contents : Bytes) (fault : Option WriteFault)
    (file : Option Bytes) : Except QuicSyncError Unit × Option Bytes :=
  match file, fault with
  | some bytes, _ => (.error (identityError create .exist), some bytes)
  | none, some (.create error) => (.error (identityError create error), none)
  | none, some (.persist error written) => (.error (identityError persist error), some written)
  | none, none => (.ok (), some contents)

def writeNew (contents : Bytes) (fault : Option WriteFault) :
    Fallible QuicSyncError IdentityFiles Unit := fun files =>
  let (result, certificate) :=
    writeNewFile "create identity file" "persist identity file" contents fault files.certificate
  (result, { files with certificate })

def writeNewPrivateKey (contents : Bytes) (fault : Option WriteFault) :
    Fallible QuicSyncError IdentityFiles Unit := fun files =>
  let (result, privateKey) := writeNewFile "create identity private key"
    "persist identity private key" contents fault files.privateKey
  (result, { files with privateKey })

/-- Create an identity. -/
def Identity.create (env : Creation) : Fallible QuicSyncError IdentityFiles Identity :=
  match env.pkcs8 with
  | none => .fail (configurationError "generate identity key")
  | some privateKeyDer =>
    match ring.fromPkcs8 privateKeyDer with
    | none => .fail (configurationError "parse generated identity key")
    | some keyPair => do
      let certificateDer ← .lift (selfSignedCertificate ring keyPair env.serial)
      writeNewPrivateKey privateKeyDer env.keyFault
      (writeNew certificateDer env.certificateFault).onError
        (.modify fun files => { files with privateKey := none })
      .lift (Identity.fromDer ring sha256 certificateDer privateKeyDer)

end Identity

/-! ### The public key element -/

/-- One element, with a single-byte tag and a minimal length. -/
def Element (bytes : Bytes) : Prop := ∃ tag value, bytes = der tag value

/-- A byte string is a certificate whose public key element is `k`: a sequence that starts with a
sequence that holds `k` behind an optional version, which is there if the first element has its
tag, and five elements. -/
def IsCertificate (certificate k : Bytes) : Prop :=
  ∃ (v : Bytes) (ts : List Bytes) (x y : Bytes),
    certificate = der 0x30 (der 0x30 (v ++ ts.flatten ++ k ++ x) ++ y) ∧
    ((v = [] ∧ ts.flatten.head? ≠ some 0xa0) ∨ ∃ value, v = der 0xa0 value) ∧
    ts.length = 5 ∧ (∀ t ∈ ts, Element t) ∧ ∃ value, k = der 0x30 value

/-- An element is longer than its value. -/
theorem length_lt_length_der (tag : UInt8) (value : Bytes) :
    value.length < (der tag value).length := by
  rw [der, List.length_cons, List.length_append]
  omega

/-- The parser at an element of a slice. -/
theorem derValue_der (tag : UInt8) (value rest : Bytes)
    (h : (der tag value ++ rest).length < 2 ^ 64) :
    derValue (der tag value ++ rest) = some (tag, value, rest) := by
  have hlt := length_lt_length_der tag value
  rw [List.length_append] at h
  exact derValue_eq_some_iff.2 ⟨by omega, rfl⟩

theorem skipElements_eq_some_iff {n : ℕ} {tbs rest : Bytes} (h : tbs.length < 2 ^ 64) :
    skipElements n tbs = some rest ↔
      ∃ ts : List Bytes, ts.length = n ∧ (∀ t ∈ ts, Element t) ∧ tbs = ts.flatten ++ rest := by
  induction n generalizing tbs with
  | zero =>
    simp only [skipElements, Option.some.injEq, List.length_eq_zero_iff]
    constructor
    · rintro rfl
      exact ⟨[], rfl, (fun t ht => nomatch ht), rfl⟩
    · rintro ⟨ts, rfl, -, h⟩
      exact h
  | succ n ih =>
    simp only [skipElements, Option.bind_eq_bind, Option.bind_eq_some_iff]
    constructor
    · rintro ⟨⟨tag, value, after⟩, helement, hskip⟩
      obtain ⟨-, rfl⟩ := derValue_eq_some_iff.1 helement
      rw [List.length_append] at h
      obtain ⟨ts, hlen, hts, rfl⟩ := (ih (Nat.lt_of_le_of_lt (Nat.le_add_left _ _) h)).1 hskip
      refine ⟨der tag value :: ts, by rw [List.length_cons, hlen],
        List.forall_mem_cons.2 ⟨⟨tag, value, rfl⟩, hts⟩, ?_⟩
      rw [List.flatten_cons, List.append_assoc]
    · rintro ⟨ts, hlen, hts, rfl⟩
      obtain ⟨t, ts, rfl⟩ := List.exists_cons_of_ne_nil (l := ts) (by
        rintro rfl
        cases hlen)
      obtain ⟨⟨tag, value, rfl⟩, hrest⟩ := List.forall_mem_cons.1 hts
      rw [List.flatten_cons, List.append_assoc] at h ⊢
      refine ⟨(tag, value, ts.flatten ++ rest), derValue_der _ _ _ h,
        (ih ?_).2 ⟨ts, Nat.succ.inj hlen, hrest, rfl⟩⟩
      rw [List.length_append] at h
      exact Nat.lt_of_le_of_lt (Nat.le_add_left _ _) h

/-- The optional version. -/
theorem skipVersion_eq_some_iff {tbs rest : Bytes} (h : tbs.length < 2 ^ 64) :
    skipVersion tbs = some rest ↔
      ∃ v, tbs = v ++ rest ∧ ((v = [] ∧ rest.head? ≠ some 0xa0) ∨ ∃ value, v = der 0xa0 value) := by
  unfold skipVersion
  split
  · rename_i hhead
    rw [skipElements_eq_some_iff h]
    constructor
    · rintro ⟨ts, hlen, hts, rfl⟩
      obtain ⟨t, rfl⟩ := List.length_eq_one_iff.1 hlen
      obtain ⟨tag, value, rfl⟩ := hts t List.mem_cons_self
      obtain rfl : tag = 0xa0 := Option.some.inj hhead
      exact ⟨der 0xa0 value, by simp, Or.inr ⟨value, rfl⟩⟩
    · rintro ⟨v, rfl, ⟨rfl, hne⟩ | ⟨value, rfl⟩⟩
      · exact absurd hhead hne
      · refine ⟨[der 0xa0 value], rfl, fun t ht => ?_, by simp⟩
        rw [List.mem_singleton.1 ht]
        exact ⟨0xa0, value, rfl⟩
  · rename_i hhead
    rw [Option.some.injEq]
    constructor
    · rintro rfl
      exact ⟨[], rfl, Or.inl ⟨rfl, hhead⟩⟩
    · rintro ⟨v, rfl, ⟨rfl, -⟩ | ⟨value, rfl⟩⟩
      · rfl
      · exact absurd rfl hhead

/-- The first byte of elements does not depend on what follows them. -/
theorem head?_flatten_append {ts : List Bytes} (hts : ∀ t ∈ ts, Element t) (hne : ts ≠ [])
    (rest : Bytes) : (ts.flatten ++ rest).head? = ts.flatten.head? := by
  obtain ⟨t, ts, rfl⟩ := List.exists_cons_of_ne_nil hne
  obtain ⟨tag, value, rfl⟩ := hts t List.mem_cons_self
  rfl

variable {sha256 : Sha256} {certificate : Bytes}

/-- The walker finds the public key element of certificates, and of nothing else. -/
theorem fingerprintCertificate_eq_some_iff (h : certificate.length < 2 ^ 64) {f : Fingerprint} :
    fingerprintCertificate sha256 certificate = some f ↔
      ∃ k, IsCertificate certificate k ∧ f = fingerprintSpki sha256 k := by
  constructor
  · intro hf
    simp only [fingerprintCertificate, Option.bind_eq_bind] at hf
    obtain ⟨⟨tag, value, remaining⟩, houter, hf₁⟩ := Option.bind_eq_some_iff.1 hf
    obtain ⟨hvalue, rfl⟩ := derValue_eq_some_iff.1 houter
    simp only at hf₁
    split at hf₁
    · cases hf₁
    rename_i htag
    simp only [not_or, not_not] at htag
    obtain ⟨rfl, rfl⟩ := htag
    obtain ⟨⟨tbsTag, tbs, y⟩, hinner, hf₂⟩ := Option.bind_eq_some_iff.1 hf₁
    obtain ⟨htbs, rfl⟩ := derValue_eq_some_iff.1 hinner
    simp only at hf₂
    split at hf₂
    · cases hf₂
    rename_i htbsTag
    obtain rfl := not_not.1 htbsTag
    obtain ⟨tbs', hversion, hf₃⟩ := Option.bind_eq_some_iff.1 hf₂
    obtain ⟨v, rfl, hv⟩ := (skipVersion_eq_some_iff htbs).1 hversion
    rw [List.length_append] at htbs
    obtain ⟨spkiStart, hskip, hf₄⟩ := Option.bind_eq_some_iff.1 hf₃
    obtain ⟨ts, hlen, hts, rfl⟩ := (skipElements_eq_some_iff (by omega)).1 hskip
    obtain ⟨⟨spkiTag, spki, x⟩, hspki, hf₅⟩ := Option.bind_eq_some_iff.1 hf₄
    obtain ⟨-, rfl⟩ := derValue_eq_some_iff.1 hspki
    simp only at hf₅
    split at hf₅
    · cases hf₅
    rename_i hspkiTag
    obtain rfl := not_not.1 hspkiTag
    have hne : ts ≠ [] := by
      rintro rfl
      cases hlen
    rw [head?_flatten_append hts hne] at hv
    refine ⟨der 0x30 spki, ⟨v, ts, x, y, by simp, hv, hlen, hts, spki, rfl⟩, ?_⟩
    rw [← Option.some.inj hf₅]
    simp
  · rintro ⟨k, ⟨v, ts, x, y, rfl, hv, hlen, hts, spki, rfl⟩, rfl⟩
    have hne : ts ≠ [] := by
      rintro rfl
      cases hlen
    have hcert := length_lt_length_der 0x30
      (der 0x30 (v ++ ts.flatten ++ der 0x30 spki ++ x) ++ y)
    have htbs := length_lt_length_der 0x30 (v ++ ts.flatten ++ der 0x30 spki ++ x)
    have houter := derValue_der 0x30 (der 0x30 (v ++ ts.flatten ++ der 0x30 spki ++ x) ++ y) []
      (by simpa using h)
    rw [List.append_nil] at houter
    rw [List.length_append] at hcert
    have hinner := derValue_der 0x30 (v ++ ts.flatten ++ der 0x30 spki ++ x) y
      (by rw [List.length_append]; omega)
    have hbound : (v ++ (ts.flatten ++ (der 0x30 spki ++ x))).length < 2 ^ 64 := by
      simp only [List.append_assoc] at htbs hcert h ⊢
      omega
    have hversion : skipVersion (v ++ (ts.flatten ++ (der 0x30 spki ++ x))) =
        some (ts.flatten ++ (der 0x30 spki ++ x)) :=
      (skipVersion_eq_some_iff hbound).2 ⟨v, rfl, by rwa [head?_flatten_append hts hne]⟩
    simp only [List.length_append] at hbound
    have hskip : skipElements 5 (ts.flatten ++ (der 0x30 spki ++ x)) = some (der 0x30 spki ++ x) :=
      (skipElements_eq_some_iff (by simp only [List.length_append]; omega)).2
        ⟨ts, hlen, hts, rfl⟩
    have hspki := derValue_der 0x30 spki x (by rw [List.length_append]; omega)
    simp only [List.append_assoc] at houter hinner
    simp only [fingerprintCertificate, List.append_assoc, houter, hinner, hskip, hspki,
      Option.bind_eq_bind, Option.bind_some, ne_eq, not_true_eq_false, or_self, if_false, hversion]
    rw [List.length_append, Nat.add_sub_cancel, List.take_left]

/-! ### Identities -/

theorem element_ed25519Algorithm : Element ed25519Algorithm :=
  ⟨0x30, [0x06, 0x03, 0x2b, 0x65, 0x70], by decide⟩

theorem element_emptyName : Element emptyName := ⟨0x30, [], by decide⟩

theorem element_validity : Element validity := ⟨0x30, validity.drop 2, by decide +kernel⟩

/-- A certificate of the program holds the element of its key. -/
theorem isCertificate_certificateOf (publicKey serial signature : Bytes) :
    IsCertificate (certificateOf publicKey serial signature) (ed25519Spki publicKey) := by
  refine ⟨der 0xa0 (der 0x02 [2]),
    [der 0x02 serial, ed25519Algorithm, emptyName, validity, emptyName], [],
    ed25519Algorithm ++ der 0x03 (0 :: signature), ?_, Or.inr ⟨_, rfl⟩, rfl, ?_, _, rfl⟩
  · simp [certificateOf, tbsCertificate, derSequence]
  · simp only [List.forall_mem_cons]
    exact ⟨⟨0x02, serial, rfl⟩, element_ed25519Algorithm, element_emptyName, element_validity,
      element_emptyName, (fun t ht => nomatch ht)⟩

/-- A certificate of the program has the fingerprint of its key. -/
theorem fingerprintCertificate_certificateOf {publicKey serial signature : Bytes}
    (h : (certificateOf publicKey serial signature).length < 2 ^ 64) :
    fingerprintCertificate sha256 (certificateOf publicKey serial signature) =
      some (fingerprintSpki sha256 (ed25519Spki publicKey)) :=
  (fingerprintCertificate_eq_some_iff h).2
    ⟨_, isCertificate_certificateOf publicKey serial signature, rfl⟩

variable {ring : Ed25519}

/-- The key of a certificate of the program makes an identity with it. -/
theorem fromDer_selfSigned {keyPair : ring.KeyPair} {random : Option Bytes} {privateKey : Bytes}
    (h : certificate.length < 2 ^ 64)
    (hcert : selfSignedCertificate ring keyPair random = .ok certificate)
    (hkey : ring.fromPkcs8 privateKey = some keyPair) :
    Identity.fromDer ring sha256 certificate privateKey = .ok ⟨certificate, privateKey,
      fingerprintSpki sha256 (ed25519Spki (ring.publicKey keyPair))⟩ := by
  cases random with
  | none => cases hcert
  | some serial =>
    obtain rfl := Except.ok.inj hcert
    simp only [Identity.fromDer, hkey, fingerprintCertificate_certificateOf h, ne_eq,
      not_true_eq_false, if_false]

/-- What a write of a new file leaves. -/
theorem writeNewFile_cases (create persist : String) (contents : Bytes)
    (fault : Option WriteFault) (file : Option Bytes) :
    (file = none ∧ fault = none ∧
        writeNewFile create persist contents fault file = (.ok (), some contents)) ∨
      ((file ≠ none ∨ fault ≠ none) ∧
        ∃ e file', writeNewFile create persist contents fault file = (.error e, file')) := by
  cases file with
  | some bytes => exact Or.inr ⟨Or.inl (by simp), _, _, rfl⟩
  | none =>
    cases fault with
    | none => exact Or.inl ⟨rfl, rfl, rfl⟩
    | some fault => cases fault <;> exact Or.inr ⟨Or.inr (by simp), _, _, rfl⟩

/-- The two files that a creation leaves are an identity, and it returns that identity. -/
theorem create_accepts {env : Creation} {files : IdentityFiles}
    {r : Except QuicSyncError Identity} {privateKey : Bytes} (h : certificate.length < 2 ^ 64)
    (hnew : files.certificate = none) (hfault : env.certificateFault = none)
    (hrun : (Identity.create ring sha256 env).run files =
      (r, ⟨some certificate, some privateKey⟩)) :
    ∃ identity, r = .ok identity ∧
      Identity.fromDer ring sha256 certificate privateKey = .ok identity := by
  -- nothing before the certificate is written creates its file
  have hfile (key : Option Bytes) {e : QuicSyncError}
      (heq : ((.error e, { files with privateKey := key }) :
        Except QuicSyncError Identity × IdentityFiles) =
          (r, ⟨some certificate, some privateKey⟩)) : False := by
    have hcert := congrArg (fun x => x.2.certificate) heq
    simp only [hnew] at hcert
    cases hcert
  unfold Identity.create at hrun
  rcases hpkcs8 : env.pkcs8 with _ | key
  · rw [hpkcs8] at hrun
    exact (hfile files.privateKey hrun).elim
  simp only [hpkcs8] at hrun
  rcases hpair : ring.fromPkcs8 key with _ | keyPair
  · rw [hpair] at hrun
    exact (hfile files.privateKey hrun).elim
  simp only [hpair] at hrun
  rcases hself : selfSignedCertificate ring keyPair env.serial with e | cert
  · rw [hself, Fallible.run_bind_error (Fallible.run_lift _ _)] at hrun
    exact (hfile files.privateKey hrun).elim
  rw [hself, Fallible.run_bind_ok (Fallible.run_lift _ _)] at hrun
  rcases writeNewFile_cases "create identity private key" "persist identity private key" key
    env.keyFault files.privateKey with ⟨-, -, hwrite⟩ | ⟨-, e, file', hwrite⟩
  · have hkey : (writeNewPrivateKey key env.keyFault).run files =
        (.ok (), { files with privateKey := some key }) := by
      simp only [Fallible.run, writeNewPrivateKey, hwrite]
    have hcert : ((writeNew cert env.certificateFault).onError
        (.modify fun files => { files with privateKey := none })).run
          { files with privateKey := some key } = (.ok (), ⟨some cert, some key⟩) := by
      refine Fallible.run_onError_ok ?_
      simp only [Fallible.run, writeNew, hnew, hfault]
      rfl
    rw [Fallible.run_bind_ok hkey, Fallible.run_bind_ok hcert, Fallible.run_lift] at hrun
    obtain ⟨rfl, hfiles⟩ := Prod.mk.inj hrun
    cases hfiles
    exact ⟨_, fromDer_selfSigned h hself hpair, fromDer_selfSigned h hself hpair⟩
  · have hkey : (writeNewPrivateKey key env.keyFault).run files =
        (.error e, { files with privateKey := file' }) := by
      simp only [Fallible.run, writeNewPrivateKey, hwrite]
    rw [Fallible.run_bind_error hkey] at hrun
    exact (hfile _ hrun).elim

/-- The walker finds the public key element exactly in certificates; the certificates of the
program have the fingerprint of their key, so that what a creation writes is an identity. -/
theorem fingerprint_certificate_iff (ring : Ed25519) (sha256 : Sha256) (certificate : Bytes)
    (h : certificate.length < 2 ^ 64) :
    (∀ f, fingerprintCertificate sha256 certificate = some f ↔
      ∃ k, IsCertificate certificate k ∧ f = fingerprintSpki sha256 k) ∧
    (∀ publicKey serial signature, certificate = certificateOf publicKey serial signature →
      fingerprintCertificate sha256 certificate =
        some (fingerprintSpki sha256 (ed25519Spki publicKey))) ∧
    (∀ keyPair random privateKey,
      selfSignedCertificate ring keyPair random = .ok certificate →
      ring.fromPkcs8 privateKey = some keyPair →
      Identity.fromDer ring sha256 certificate privateKey = .ok ⟨certificate, privateKey,
        fingerprintSpki sha256 (ed25519Spki (ring.publicKey keyPair))⟩) ∧
    ∀ env files r privateKey, files.certificate = none → env.certificateFault = none →
      (Identity.create ring sha256 env).run files = (r, ⟨some certificate, some privateKey⟩) →
      ∃ identity, r = .ok identity ∧
        Identity.fromDer ring sha256 certificate privateKey = .ok identity := by
  refine ⟨fun f => fingerprintCertificate_eq_some_iff h, ?_, ?_, ?_⟩
  · rintro publicKey serial signature rfl
    exact fingerprintCertificate_certificateOf h
  · intro keyPair random privateKey hcert hkey
    exact fromDer_selfSigned h hcert hkey
  · intro env files r privateKey hnew hfault hrun
    exact create_accepts h hnew hfault hrun

/-! A key pair of the scheme's own test vectors, and a certificate for it. -/

def sampleSeed : Bytes :=
  [0x9d, 0x61, 0xb1, 0x9d, 0xef, 0xfd, 0x5a, 0x60, 0xba, 0x84, 0x4a, 0xf4, 0x92, 0xec, 0x2c, 0xc4,
    0x44, 0x49, 0xc5, 0x69, 0x7b, 0x32, 0x69, 0x19, 0x70, 0x3b, 0xac, 0x03, 0x1c, 0xae, 0x7f, 0x60]

def sampleKey : Bytes :=
  [0xd7, 0x5a, 0x98, 0x01, 0x82, 0xb1, 0x0a, 0xb7, 0xd5, 0x4b, 0xfe, 0xd3, 0xc9, 0x64, 0x07, 0x3a,
    0x0e, 0xe1, 0x72, 0xf3, 0xda, 0xa6, 0x23, 0x25, 0xaf, 0x02, 0x1a, 0x68, 0xf7, 0x07, 0x51, 0x1a]

def samplePkcs8 : Bytes :=
  [0x30, 0x51, 0x02, 0x01, 0x01, 0x30, 0x05, 0x06, 0x03, 0x2b, 0x65, 0x70, 0x04, 0x22, 0x04, 0x20] ++
    sampleSeed ++ [0x81, 0x21, 0x00] ++ sampleKey

def sampleSerial : Bytes := 1 :: List.replicate 15 0

def sampleSignature : Bytes :=
  [0xb6, 0x43, 0x18, 0x82, 0x7a, 0x9a, 0xc5, 0x3b, 0x2e, 0xf5, 0x6d, 0x7e, 0x3c, 0x66, 0x15, 0xe1,
    0xe4, 0xad, 0x06, 0xcb, 0x0e, 0x52, 0x05, 0xdf, 0x2a, 0x4f, 0x1a, 0x2f, 0x28, 0x46, 0xe3, 0x63,
    0x7f, 0xf6, 0x97, 0xe4, 0xf0, 0x31, 0xaa, 0xeb, 0x6b, 0x4f, 0xf1, 0x88, 0x78, 0xcc, 0x3e, 0x17,
    0xf6, 0x2c, 0x84, 0x47, 0x54, 0xb0, 0x2d, 0x63, 0xe1, 0xf6, 0x1a, 0x41, 0xb6, 0x24, 0x85, 0x01]

def sampleDigest : Bytes :=
  [0x06, 0xe3, 0xfd, 0x8f, 0xda, 0x29, 0xbb, 0x60, 0xab, 0x59, 0x55, 0x7d, 0xe6, 0x1e, 0xdb, 0x0a,
    0xec, 0xdb, 0x23, 0x11, 0x34, 0xbe, 0x30, 0xe7, 0x5b, 0x45, 0x5f, 0x8e, 0x1b, 0x79, 0x2f, 0xa9]

/-- The signature scheme at that key. -/
def sampleRing : Ed25519 where
  KeyPair := Unit
  fromPkcs8 bytes := if bytes = samplePkcs8 then some () else none
  publicKey _ := sampleKey
  sign _ _ := sampleSignature

/-- The digest at the public key element of that key. -/
def sampleSha256 : Sha256 := fun _ => ⟨sampleDigest, rfl⟩

/-- The certificate that is written for that key is an identity with the digest of the key. -/
theorem fingerprint_certificate_sample :
    (certificateOf sampleKey sampleSerial sampleSignature).length < 2 ^ 64 ∧
      Identity.fromDer sampleRing sampleSha256
        (certificateOf sampleKey sampleSerial sampleSignature) samplePkcs8 =
          .ok ⟨certificateOf sampleKey sampleSerial sampleSignature, samplePkcs8,
            ⟨sampleDigest, rfl⟩⟩ := by
  have h : (certificateOf sampleKey sampleSerial sampleSignature).length < 2 ^ 64 := by
    decide +kernel
  exact ⟨h, (fingerprint_certificate_iff sampleRing sampleSha256 _ h).2.2.1 () (some sampleSerial)
    samplePkcs8 rfl rfl⟩

end QuicSync

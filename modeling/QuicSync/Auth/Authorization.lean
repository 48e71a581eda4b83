import QuicSync.Auth.Store
import QuicSync.Config.Load
import QuicSync.Sync.Destination

/-!
# Who may synchronize

A peer is known by the public key of its certificate.  The TLS verifiers compare it with the pins
of the configuration, and the first message of a session is answered only for a root that lists it.

* `Lists` : an entry of the configuration file has a text that spells the fingerprint;
* `authorized_iff_listed` : a peer is let in and served a root exactly when the file says so, and
  the order in which it says so does not matter;
* `provisioned_peers_meet` : two endpoints that are configured with what `init` prints let each
  other in.
-/

namespace QuicSync

open Config

/-! ### Pinned peers -/

/-- Why a certificate is refused. -/
inductive CertificateError where
  | badEncoding
  | unknownIssuer
  deriving DecidableEq

section

variable (sha256 : Sha256)

def verifyPin (certificate : Bytes) (accepted : Fingerprint → Bool) :
    Except CertificateError Unit :=
  match fingerprintCertificate sha256 certificate with
  | none => .error .badEncoding
  | some fingerprint => if accepted fingerprint then .ok () else .error .unknownIssuer

/-- The certificates that a source accepts. -/
structure PinnedServerVerifier where
  expected : Fingerprint

/-- The certificates that a destination accepts. -/
structure PinnedClientVerifier where
  allowed : List Fingerprint

/-- What a source makes of the certificate of its peer. -/
def PinnedServerVerifier.verifyServerCert (verifier : PinnedServerVerifier) (endEntity : Bytes) :
    Except CertificateError Unit :=
  verifyPin sha256 endEntity fun fingerprint => fingerprint = verifier.expected

/-- What a destination makes of the certificate of its peer. -/
def PinnedClientVerifier.verifyClientCert (verifier : PinnedClientVerifier) (endEntity : Bytes) :
    Except CertificateError Unit :=
  verifyPin sha256 endEntity fun fingerprint => fingerprint ∈ verifier.allowed

def clientTls (expected : Fingerprint) : PinnedServerVerifier := ⟨expected⟩

def serverTls (allowed : List Fingerprint) : Except QuicSyncError PinnedClientVerifier :=
  if allowed.isEmpty then
    .error (configurationError "server TLS requires at least one allowed peer pin")
  else .ok ⟨allowed⟩

def PeerPin.fingerprint (pin : PeerPin) : Fingerprint := ⟨pin.bytes, pin.size⟩

variable {SocketAddr : Type}

/-- The verifier of a source's connections. -/
def SourceConfig.connect (config : SourceConfig SocketAddr) : PinnedServerVerifier :=
  clientTls config.peerPin.fingerprint

/-- The verifier of a destination's connections. -/
def DestinationConfig.listen (config : DestinationConfig SocketAddr) :
    Except QuicSyncError PinnedClientVerifier :=
  serverTls ((config.roots.flatMap (·.authorizedPeers)).map PeerPin.fingerprint)

/-- What a connection knows of its peer's identity. -/
inductive PeerIdentity where
  | absent
  | otherThanCertificates
  | certificates (chain : List Bytes)

def Fingerprint.fromCertificateDer (certificate : Bytes) : Except QuicSyncError Fingerprint :=
  match fingerprintCertificate sha256 certificate with
  | some fingerprint => .ok fingerprint
  | none => .error (Transport.authentication "peer supplied a malformed certificate")

/-- The fingerprint of the peer of a connection. -/
def peerFingerprint : PeerIdentity → Except QuicSyncError Fingerprint
  | .absent => .error (Transport.authentication "peer presented no certificate")
  | .otherThanCertificates =>
    .error (Transport.authentication "peer identity is not a certificate chain")
  | .certificates [] => .error (Transport.authentication "peer certificate chain is empty")
  | .certificates (endEntity :: _) => Fingerprint.fromCertificateDer sha256 endEntity

end

/-- The roots as a session sees them; `handle` opens the directory of one. -/
def DestinationConfig.configuredRoots {SocketAddr : Type} (config : DestinationConfig SocketAddr)
    (handle : ValidatedRoot → RootHandle) : List ConfiguredRoot :=
  config.roots.map fun root =>
    ⟨root.id.value, handle root.root, root.authorizedPeers.map PeerPin.bytes⟩

/-- A peer may write to a root. -/
def DestinationConfig.authorize {SocketAddr : Type} (config : DestinationConfig SocketAddr)
    (peer : PeerPin) (rootId : String) : Bool :=
  config.roots.any fun root => root.id.value = rootId && root.authorizedPeers.contains peer

/-! ### Grants -/

inductive Direction where
  | sourceToDestination
  | destinationToSource
  deriving DecidableEq

/-- A configured permission for one peer, root and direction. -/
structure PeerGrant where
  pin : Fingerprint
  rootId : String
  direction : Direction
  deriving DecidableEq

/-- The result of a successful authorization check. -/
structure Authorization where
  peer : Fingerprint
  rootId : String
  direction : Direction
  deriving DecidableEq

/-- A deny-by-default set of grants. -/
structure Authorizer where
  grants : List PeerGrant
  distinct : grants.Nodup

def validateRootId (rootId : String) : Except QuicSyncError Unit :=
  if isName 255 rootId then .ok ()
  else .error (configurationError
    "root ID must be 1-255 ASCII letters, digits, dots, dashes, or underscores")

/-- The grants, each with a valid name, and none of them twice. -/
def Authorizer.validate (grants : List PeerGrant) : Except QuicSyncError (List PeerGrant) :=
  collectDistinct (fun grant => (validateRootId grant.rootId).map fun _ => grant)
    (configurationError "duplicate peer authorization grant") [] grants

def Authorizer.new (grants : List PeerGrant) : Except QuicSyncError Authorizer :=
  match h : Authorizer.validate grants with
  | .ok validated => .ok ⟨validated, (collectDistinct_eq_ok_iff.1 h).2.1⟩
  | .error e => .error e

def Authorizer.authorize (authorizer : Authorizer) (peer : Fingerprint) (rootId : String)
    (direction : Direction) : Except QuicSyncError Authorization :=
  if ⟨peer, rootId, direction⟩ ∈ authorizer.grants then .ok ⟨peer, rootId, direction⟩
  else .error (QuicSyncError.new .authorizationDenied (some .handshake)
    (.text "peer is not authorized for requested root and direction"))

def Fingerprint.lowerHex (byte : UInt8) : List Char :=
  [lowerDigits.getD (byte.toNat / 16) '0', lowerDigits.getD (byte.toNat % 16) '0']

/-- What `init` prints. -/
def Identity.initText (identity : Identity) : String :=
  String.ofList (identity.fingerprint.bytes.flatMap Fingerprint.lowerHex)

/-- A set of grants is accepted exactly when every name is valid and no grant comes twice, and then
it allows what is granted and nothing else. -/
theorem Authorizer.new_spec (grants : List PeerGrant) :
    ((∃ authorizer, Authorizer.new grants = .ok authorizer) ↔
      grants.Nodup ∧ ∀ grant ∈ grants, isName 255 grant.rootId = true) ∧
    ∀ authorizer, Authorizer.new grants = .ok authorizer → ∀ peer rootId direction a,
      authorizer.authorize peer rootId direction = .ok a ↔
        ⟨peer, rootId, direction⟩ ∈ grants ∧ a = ⟨peer, rootId, direction⟩ := by
  have hread {grant grant' : PeerGrant} :
      (validateRootId grant.rootId).map (fun _ => grant) = .ok grant' ↔
        isName 255 grant.rootId = true ∧ grant = grant' := by
    unfold validateRootId
    split <;> simp_all [Except.map]
  have hvalid {validated : List PeerGrant} : Authorizer.validate grants = .ok validated ↔
      grants = validated ∧ grants.Nodup ∧ ∀ grant ∈ grants, isName 255 grant.rootId = true := by
    simp only [Authorizer.validate, collectDistinct_eq_ok_iff, hread, List.not_mem_nil,
      not_false_eq_true, implies_true, and_true]
    constructor
    · rintro ⟨hall, hnodup⟩
      obtain rfl : grants = validated := List.forall₂_eq_eq_eq ▸ hall.imp fun _ _ h => h.2
      exact ⟨rfl, hnodup, List.forall₂_same.1 (hall.imp fun _ _ h => h.1)⟩
    · rintro ⟨rfl, hnodup, hall⟩
      exact ⟨List.forall₂_same.2 fun grant hgrant => ⟨hall grant hgrant, rfl⟩, hnodup⟩
  have hnew {authorizer : Authorizer} : Authorizer.new grants = .ok authorizer ↔
      Authorizer.validate grants = .ok authorizer.grants := by
    unfold Authorizer.new
    split
    · rename_i validated h
      constructor
      · intro hok
        rw [← Except.ok.inj hok]
        exact h
      · intro hok
        obtain rfl := Except.ok.inj (h.symm.trans hok)
        rfl
    · rename_i e h
      rw [h]
      simp
  constructor
  · constructor
    · rintro ⟨authorizer, h⟩
      exact (hvalid.1 (hnew.1 h)).2
    · intro h
      exact ⟨⟨grants, h.1⟩, hnew.2 (hvalid.2 ⟨rfl, h⟩)⟩
  · intro authorizer h peer rootId direction a
    obtain ⟨heq, -⟩ := hvalid.1 (hnew.1 h)
    unfold Authorizer.authorize
    rw [← heq]
    split
    · rename_i hmem
      rw [Except.ok.injEq]
      exact ⟨fun h => ⟨hmem, h.symm⟩, fun h => h.2.symm⟩
    · rename_i hmem
      refine ⟨fun h => ?_, fun h => absurd h.1 hmem⟩
      cases h

/-! ### Listed peers -/

/-- A text is the fingerprint in pairs of hexadecimal digits of either case. -/
def Names (text : String) (f : Fingerprint) : Prop :=
  ∃ pairs, List.Forall₂ HexPair pairs f.bytes ∧ text.toList = pairs.flatten

/-- An entry of the file lists a peer. -/
def RawDestinationRoot.Lists (raw : RawDestinationRoot) (f : Fingerprint) : Prop :=
  ∃ text ∈ raw.authorizedPeers, Names text f

theorem names_iff {text : String} {f : Fingerprint} :
    Names text f ↔ PeerPin.parse text = .ok ⟨f.bytes, f.size⟩ :=
  (PeerPin.parse_ok_iff (p := ⟨f.bytes, f.size⟩)).symm

theorem Identity.names_initText (identity : Identity) :
    Names identity.initText identity.fingerprint := by
  refine ⟨identity.fingerprint.bytes.map Fingerprint.lowerHex,
    forall₂_map_hexPair (fun byte => ?_) _, ?_⟩
  · have hall : ∀ x < 16, lowerDigits[x]? = some (lowerDigits.getD x '0') := by decide
    have hb := byte.toNat_lt
    exact ⟨_, _, byte.toNat / 16, byte.toNat % 16, rfl, Or.inl (hall _ (by omega)),
      Or.inl (hall _ (by omega)), by omega⟩
  · rw [Identity.initText, String.toList_ofList, List.flatMap_def]

section

variable {sha256 : Sha256} {host : Host} {SocketAddr : Type} {parsers : Parsers SocketAddr}
  {setupRoot : Bytes} {raw : RawDestinationConfig} {config : DestinationConfig SocketAddr}
  {entry : RawDestinationRoot} {root : DestinationRoot} {f : Fingerprint}

theorem verifyPin_eq_ok_iff {certificate : Bytes} {accepted : Fingerprint → Bool} {u : Unit} :
    verifyPin sha256 certificate accepted = .ok u ↔
      ∃ f, fingerprintCertificate sha256 certificate = some f ∧ accepted f = true := by
  unfold verifyPin
  split
  · rename_i h
    simp [h]
  · rename_i f h
    simp only [h, Option.some.injEq, exists_eq_left']
    split <;> simp_all

theorem Fingerprint.fromCertificateDer_eq_ok_iff {certificate : Bytes} :
    Fingerprint.fromCertificateDer sha256 certificate = .ok f ↔
      fingerprintCertificate sha256 certificate = some f := by
  unfold Fingerprint.fromCertificateDer
  split <;> simp_all

/-- A root of the configuration has the pins that its entry lists. -/
theorem Configures.mem_iff (h : Configures host setupRoot entry root) :
    (⟨f.bytes, f.size⟩ : PeerPin) ∈ root.authorizedPeers ↔ entry.Lists f := by
  simp only [RawDestinationRoot.Lists, names_iff]
  constructor
  · intro hpin
    exact exists_left_of_forall₂ h.pins hpin
  · rintro ⟨text, htext, hparse⟩
    obtain ⟨pin, hpin, hparse'⟩ := exists_right_of_forall₂ h.pins htext
    rw [hparse, Except.ok.injEq] at hparse'
    rwa [hparse']

theorem PeerPin.mem_bytes_iff {pins : List PeerPin} :
    f.bytes ∈ pins.map PeerPin.bytes ↔ (⟨f.bytes, f.size⟩ : PeerPin) ∈ pins := by
  rw [List.mem_map]
  constructor
  · rintro ⟨pin, hpin, heq⟩
    rcases pin with ⟨bytes, size⟩
    obtain rfl : bytes = f.bytes := heq
    exact hpin
  · intro hpin
    exact ⟨_, hpin, rfl⟩

theorem Config.OpensRoot.unique {path : Bytes} {r r' : ValidatedRoot}
    (h : OpensRoot host path r) (h' : OpensRoot host path r') : r = r' := by
  rw [← openRoot_eq_ok_iff] at h h'
  exact Except.ok.inj (h.symm.trans h')

namespace DestinationConfig

/-- Two roots with one name are one root. -/
theorem Accepts.root_eq (h : config.Accepts host parsers setupRoot raw) {r r' : DestinationRoot}
    (hr : r ∈ config.roots) (hr' : r' ∈ config.roots) (hid : r.id.value = r'.id.value) : r = r' := by
  refine List.inj_on_of_nodup_map h.ids hr hr' ?_
  rcases hi : r.id with ⟨value, valid⟩
  rcases hi' : r'.id with ⟨value', valid'⟩
  rw [hi, hi'] at hid
  obtain rfl : value = value' := hid
  rfl

/-- A destination that is configured can listen: it has a pin. -/
theorem Accepts.listen (h : config.Accepts host parsers setupRoot raw) :
    config.listen = .ok ⟨(config.roots.flatMap (·.authorizedPeers)).map PeerPin.fingerprint⟩ := by
  obtain ⟨entry, hentry⟩ := List.exists_mem_of_ne_nil _ h.nonempty
  obtain ⟨root, hroot, hconfigures⟩ := exists_right_of_forall₂ h.configures hentry
  obtain ⟨text, htext⟩ := List.exists_mem_of_ne_nil _ hconfigures.authorized
  obtain ⟨pin, hpin, -⟩ := exists_right_of_forall₂ hconfigures.pins htext
  have hmem : pin ∈ config.roots.flatMap (·.authorizedPeers) :=
    List.mem_flatMap.2 ⟨root, hroot, hpin⟩
  unfold DestinationConfig.listen serverTls
  rw [if_neg]
  rw [List.isEmpty_iff, List.map_eq_nil_iff]
  exact List.ne_nil_of_mem hmem

/-- The verifier lets in exactly the peers that some entry lists. -/
theorem Accepts.verify_iff (h : config.Accepts host parsers setupRoot raw)
    {verifier : PinnedClientVerifier} (hlisten : config.listen = .ok verifier)
    {certificate : Bytes} {u : Unit} :
    verifier.verifyClientCert sha256 certificate = .ok u ↔
      ∃ f, fingerprintCertificate sha256 certificate = some f ∧
        ∃ entry ∈ raw.roots, entry.Lists f := by
  rw [h.listen, Except.ok.injEq] at hlisten
  subst hlisten
  rw [PinnedClientVerifier.verifyClientCert, verifyPin_eq_ok_iff]
  refine exists_congr fun f => and_congr_right fun _ => ?_
  rw [decide_eq_true_iff, List.mem_map]
  constructor
  · rintro ⟨pin, hpin, rfl⟩
    obtain ⟨root, hroot, hpin⟩ := List.mem_flatMap.1 hpin
    obtain ⟨entry, hentry, hconfigures⟩ := exists_left_of_forall₂ h.configures hroot
    exact ⟨entry, hentry, hconfigures.mem_iff.1 hpin⟩
  · rintro ⟨entry, hentry, hlists⟩
    obtain ⟨root, hroot, hconfigures⟩ := exists_right_of_forall₂ h.configures hentry
    exact ⟨⟨f.bytes, f.size⟩, List.mem_flatMap.2 ⟨root, hroot, hconfigures.mem_iff.2 hlists⟩, rfl⟩

/-- The root that a peer is given is the one of the entry that has the name and lists the peer. -/
theorem Accepts.authorizedRoot_iff (h : config.Accepts host parsers setupRoot raw)
    {handle : ValidatedRoot → RootHandle} {rootId : String} {r : ConfiguredRoot} :
    authorizedRoot (config.configuredRoots handle) f.bytes rootId = .ok r ↔
      ∃ entry ∈ raw.roots, ∃ root ∈ config.roots, Configures host setupRoot entry root ∧
        entry.id = rootId ∧ entry.Lists f ∧
        r = ⟨root.id.value, handle root.root, root.authorizedPeers.map PeerPin.bytes⟩ := by
  have hunique : ∀ b ∈ config.configuredRoots handle, ∀ c ∈ config.configuredRoots handle,
      decide (b.id = rootId ∧ f.bytes ∈ b.authorizedPeers) = true →
      decide (c.id = rootId ∧ f.bytes ∈ c.authorizedPeers) = true → b = c := by
    intro b hb c hc hPb hPc
    obtain ⟨r, hr, rfl⟩ := List.mem_map.1 hb
    obtain ⟨r', hr', rfl⟩ := List.mem_map.1 hc
    rw [decide_eq_true_iff] at hPb hPc
    rw [h.root_eq hr hr' (hPb.1.trans hPc.1.symm)]
  have hfound : authorizedRoot (config.configuredRoots handle) f.bytes rootId = .ok r ↔
      (config.configuredRoots handle).find?
        (fun root => decide (root.id = rootId ∧ f.bytes ∈ root.authorizedPeers)) = some r := by
    unfold authorizedRoot
    split
    · rename_i root hroot
      rw [hroot, Except.ok.injEq, Option.some.injEq]
    · rename_i hnone
      rw [hnone]
      simp
  rw [hfound, find?_eq_some_iff_of_unique hunique, decide_eq_true_iff]
  constructor
  · rintro ⟨hr, hid, hpin⟩
    obtain ⟨root, hroot, rfl⟩ := List.mem_map.1 hr
    obtain ⟨entry, hentry, hconfigures⟩ := exists_left_of_forall₂ h.configures hroot
    exact ⟨entry, hentry, root, hroot, hconfigures, hconfigures.id.symm.trans hid,
      hconfigures.mem_iff.1 (PeerPin.mem_bytes_iff.1 hpin), rfl⟩
  · rintro ⟨entry, hentry, root, hroot, hconfigures, hid, hlists, rfl⟩
    exact ⟨List.mem_map.2 ⟨root, hroot, rfl⟩, hconfigures.id.trans hid,
      PeerPin.mem_bytes_iff.2 (hconfigures.mem_iff.2 hlists)⟩

/-- The configuration answers as a session does. -/
theorem Accepts.authorize_iff (h : config.Accepts host parsers setupRoot raw)
    {handle : ValidatedRoot → RootHandle} {rootId : String} :
    config.authorize ⟨f.bytes, f.size⟩ rootId = true ↔
      ∃ r, authorizedRoot (config.configuredRoots handle) f.bytes rootId = .ok r := by
  simp only [DestinationConfig.authorize, List.any_eq_true, Bool.and_eq_true, decide_eq_true_iff,
    List.contains_iff_mem, h.authorizedRoot_iff]
  constructor
  · rintro ⟨root, hroot, hid, hpin⟩
    obtain ⟨entry, hentry, hconfigures⟩ := exists_left_of_forall₂ h.configures hroot
    exact ⟨_, entry, hentry, root, hroot, hconfigures, hconfigures.id.symm.trans hid,
      hconfigures.mem_iff.1 hpin, rfl⟩
  · rintro ⟨_, entry, hentry, root, hroot, hconfigures, hid, hlists, -⟩
    exact ⟨root, hroot, hconfigures.id.trans hid, hconfigures.mem_iff.2 hlists⟩

/-- Two entries that open one directory have one name. -/
theorem Accepts.id_eq (h : config.Accepts host parsers setupRoot raw)
    {entry entry' : RawDestinationRoot} (hentry : entry ∈ raw.roots) (hentry' : entry' ∈ raw.roots)
    {r r' : ValidatedRoot} (hr : OpensRoot host (joinPath setupRoot entry.path) r)
    (hr' : OpensRoot host (joinPath setupRoot entry'.path) r')
    (heq : r.filesystemIdentity = r'.filesystemIdentity) : entry.id = entry'.id := by
  obtain ⟨root, hroot, hconfigures⟩ := exists_right_of_forall₂ h.configures hentry
  obtain ⟨root', hroot', hconfigures'⟩ := exists_right_of_forall₂ h.configures hentry'
  rw [hr.unique hconfigures.opened, hr'.unique hconfigures'.opened] at heq
  rw [← hconfigures.id, ← hconfigures'.id, List.inj_on_of_nodup_map h.directories hroot hroot' heq]

end DestinationConfig

/-- The first message is answered exactly when an entry has the name and lists the peer. -/
theorem DestinationConfig.Accepts.acceptStart_iff (h : config.Accepts host parsers setupRoot raw)
    {handle : ValidatedRoot → RootHandle} {cfg : Serving}
    (hroots : cfg.roots = config.configuredRoots handle) {chunks : List Bytes}
    {peer : PeerIdentity} {opened : Except QuicSyncError Unit} {r : RootHandle} :
    Destination.acceptStart cfg chunks ((peerFingerprint sha256 peer).map (·.bytes)) opened =
        .ok r ↔
      opened = .ok () ∧ ∃ f rootId rest, peerFingerprint sha256 peer = .ok f ∧
        receiveStart cfg.limits chunks = .ok (rootId, rest) ∧
        ∃ entry ∈ raw.roots, entry.id = rootId ∧ entry.Lists f ∧
          ∃ root, OpensRoot host (joinPath setupRoot entry.path) root ∧ r = handle root := by
  simp only [Destination.acceptStart, bind_eq_ok_iff, Reader.mapError_eq_ok_iff, hroots]
  constructor
  · rintro ⟨⟨rootId, rest⟩, hstart, bytes, hpeer, configured, hauthorized, u, hopened, hr⟩
    rcases hf : peerFingerprint sha256 peer with e | f
    · rw [hf] at hpeer
      cases hpeer
    rw [hf] at hpeer
    obtain rfl : f.bytes = bytes := Except.ok.inj hpeer
    obtain ⟨entry, hentry, root, -, hconfigures, hid, hlists, rfl⟩ :=
      h.authorizedRoot_iff.1 hauthorized
    exact ⟨hopened, f, rootId, rest, rfl, hstart, entry, hentry, hid, hlists, root.root,
      hconfigures.opened, (Except.ok.inj hr).symm⟩
  · rintro ⟨hopened, f, rootId, rest, hf, hstart, entry, hentry, hid, hlists, opened', hroot, rfl⟩
    obtain ⟨root, hmem, hconfigures⟩ := exists_right_of_forall₂ h.configures hentry
    obtain rfl := hroot.unique hconfigures.opened
    refine ⟨(rootId, rest), hstart, f.bytes, by rw [hf]; rfl, _,
      h.authorizedRoot_iff.2 ⟨entry, hentry, root, hmem, hconfigures, hid, hlists, rfl⟩, (),
      hopened, rfl⟩

end

/-- **Who may synchronize.**  A destination that is configured can listen, lets in exactly the
certificates whose public key some entry of its file lists, and opens for the first message of a
session exactly the directory of the entry that has the requested name and lists the peer; no two
names open one directory. -/
theorem authorized_iff_listed (sha256 : Sha256) (host : Host) {SocketAddr : Type}
    (parsers : Parsers SocketAddr) (setupRoot : Bytes) (config : DestinationConfig SocketAddr)
    (h : loadDestination host parsers setupRoot = .ok config) :
    ∃ raw verifier, ReadsAs host parsers.destination
        (joinPath (joinPath setupRoot adminDirectory) destinationConfig) raw ∧
      config.listen = .ok verifier ∧
      (∀ certificate, verifier.verifyClientCert sha256 certificate = .ok () ↔
        ∃ f, fingerprintCertificate sha256 certificate = some f ∧
          ∃ entry ∈ raw.roots, entry.Lists f) ∧
      (∀ (handle : ValidatedRoot → RootHandle) (cfg : Serving) chunks peer opened r,
        cfg.roots = config.configuredRoots handle →
        (Destination.acceptStart cfg chunks ((peerFingerprint sha256 peer).map (·.bytes)) opened =
            .ok r ↔
          opened = .ok () ∧ ∃ f rootId rest, peerFingerprint sha256 peer = .ok f ∧
            receiveStart cfg.limits chunks = .ok (rootId, rest) ∧
            ∃ entry ∈ raw.roots, entry.id = rootId ∧ entry.Lists f ∧
              ∃ root, OpensRoot host (joinPath setupRoot entry.path) root ∧ r = handle root)) ∧
      ∀ entry ∈ raw.roots, ∀ entry' ∈ raw.roots, ∀ r r',
        OpensRoot host (joinPath setupRoot entry.path) r →
        OpensRoot host (joinPath setupRoot entry'.path) r' →
        r.filesystemIdentity = r'.filesystemIdentity → entry.id = entry'.id := by
  obtain ⟨raw, haccepts⟩ := loadDestination_eq_ok_iff.1 h
  refine ⟨raw, _, haccepts.file, haccepts.listen, fun certificate => ?_, ?_, ?_⟩
  · exact haccepts.verify_iff haccepts.listen
  · intro handle cfg chunks peer opened r hroots
    exact haccepts.acceptStart_iff hroots
  · intro entry hentry entry' hentry' r r' hr hr' heq
    exact haccepts.id_eq hentry hentry' hr hr' heq

/-! A destination with two roots, for the peer whose fingerprint `init` has printed. -/

def sampleHost : Host where
  euid := 1000
  symlinkMetadata _ := .ok ⟨.directory, 0o40700, 1000, 1, 2⟩
  metadata _ := .ok ⟨.directory, 0o40700, 1000, 1, 2⟩
  openDirectory path := .ok ⟨.ok ⟨.directory, 0o40700, 1000, 1, path.length.toUInt64⟩,
    .error (.system .isdir)⟩
  openFile _ := .ok ⟨.ok ⟨.regular, 0o100600, 1000, 1, 3⟩, .ok "listen_address = '[::]:4433'"⟩

def notesEntry : RawDestinationRoot := ⟨"notes", ascii "notes", [sampleIdentity.initText]⟩

def docsEntry : RawDestinationRoot := ⟨"docs", ascii "/docs", [sampleIdentity.initText]⟩

def noLimits : RawLimits := ⟨none, none, none, none, none, none⟩

def sampleParsers : Parsers String where
  source _ := .ok ⟨"notes", "[::1]:4433", sampleIdentity.initText, [], noLimits⟩
  destination _ := .ok ⟨"[::]:4433", [notesEntry, docsEntry], noLimits⟩
  address text := .ok text

def samplePin : PeerPin := ⟨sampleIdentity.fingerprint.bytes, sampleIdentity.fingerprint.size⟩

def notesRoot : DestinationRoot :=
  ⟨⟨"notes", by decide⟩, ⟨ascii "/srv/notes", 1, 10⟩, [samplePin]⟩

def docsRoot : DestinationRoot := ⟨⟨"docs", by decide⟩, ⟨ascii "/docs", 1, 5⟩, [samplePin]⟩

def sampleDestination : DestinationConfig String where
  listenAddress := "[::]:4433"
  roots := [notesRoot, docsRoot]
  limits := defaultLimits
  privateKey := ascii "/srv/.quicsync/identity.key"

theorem notLink_sampleHost (path : Bytes) : NotLink sampleHost path := ⟨_, rfl, by decide⟩

theorem opensRoot_sampleHost (path : Bytes) :
    OpensRoot sampleHost path ⟨path, 1, path.length.toUInt64⟩ :=
  ⟨notLink_sampleHost path, _, _, rfl, rfl, rfl, rfl⟩

theorem administered_sampleHost (root : Bytes) : Administered sampleHost root where
  notLink := notLink_sampleHost _
  directory := ⟨_, rfl, rfl, rfl, by decide⟩
  privateKey := ⟨_, _, rfl, rfl, ⟨rfl, rfl, by decide⟩, by decide⟩

theorem readsAs_sampleHost {α : Type} {parse : String → Except String α} {path : Bytes} {raw : α}
    (h : parse "listen_address = '[::]:4433'" = .ok raw) : ReadsAs sampleHost parse path raw :=
  ⟨_, _, ⟨rfl, _, rfl, rfl, rfl, by decide⟩, rfl, h⟩

theorem parse_initText : PeerPin.parse sampleIdentity.initText = .ok samplePin :=
  names_iff.1 sampleIdentity.names_initText

theorem configures_notesRoot : Configures sampleHost (ascii "/srv") notesEntry notesRoot where
  id := rfl
  opened := by
    have hpath : joinPath (ascii "/srv") notesEntry.path = ascii "/srv/notes" := by decide
    rw [hpath]
    exact opensRoot_sampleHost _
  authorized := List.cons_ne_nil _ _
  pins := .cons parse_initText .nil
  distinct := List.nodup_singleton _

theorem configures_docsRoot : Configures sampleHost (ascii "/srv") docsEntry docsRoot where
  id := rfl
  opened := by
    have hpath : joinPath (ascii "/srv") docsEntry.path = ascii "/docs" := by decide
    rw [hpath]
    exact opensRoot_sampleHost _
  authorized := List.cons_ne_nil _ _
  pins := .cons parse_initText .nil
  distinct := List.nodup_singleton _

theorem sampleDestination_loaded :
    loadDestination sampleHost sampleParsers (ascii "/srv") = .ok sampleDestination := by
  refine loadDestination_eq_ok_iff.2 ⟨⟨"[::]:4433", [notesEntry, docsEntry], noLimits⟩, ?_⟩
  exact
    { opened := ⟨_, opensRoot_sampleHost _⟩
      administered := administered_sampleHost _
      file := readsAs_sampleHost rfl
      nonempty := List.cons_ne_nil _ _
      configures := .cons configures_notesRoot (.cons configures_docsRoot .nil)
      ids := by decide
      directories := by decide
      listenAddress := rfl
      limits := rfl
      privateKey := by decide }

/-- The destination lets the peer in. -/
theorem authorized_iff_listed_sample : ∃ verifier,
    sampleDestination.listen = .ok verifier ∧
      verifier.verifyClientCert sampleSha256 sampleIdentity.certificate = .ok () := by
  obtain ⟨raw, verifier, hraw, hlisten, hverify, -⟩ := authorized_iff_listed sampleSha256 sampleHost
    sampleParsers (ascii "/srv") sampleDestination sampleDestination_loaded
  refine ⟨verifier, hlisten, (hverify _).2 ⟨sampleIdentity.fingerprint, ?_, notesEntry, ?_,
    sampleIdentity.initText, List.mem_singleton_self _, sampleIdentity.names_initText⟩⟩
  · exact fingerprintCertificate_certificateOf (by decide +kernel)
  · obtain ⟨_, _, -, -, hparse⟩ := hraw
    obtain rfl := Except.ok.inj hparse
    exact List.mem_cons_self

/-! ### Provisioning -/

section

variable {host : Host} {α : Type} {parse : String → Except String α} {path : Bytes} {a b : α}

/-- A file says one thing. -/
theorem Config.ReadsAs.unique (ha : ReadsAs host parse path a) (hb : ReadsAs host parse path b) :
    a = b := by
  rw [← readToml_eq_ok_iff] at ha hb
  exact Except.ok.inj (ha.symm.trans hb)

end

/-- **Provisioning.**  The source is configured with what `init` has printed at the destination, and
the destination lists what `init` has printed at the source under the name that the source asks for.
Then the source accepts the certificates with the public key of the destination and no others, the
destination accepts the certificate of the source, and the first message of the source opens the
directory of that name. -/
theorem provisioned_peers_meet (ring : Ed25519) (sha256 : Sha256) {SocketAddr : Type}
    (source destination : Identity)
    (hsource : Identity.fromDer ring sha256 source.certificate source.privateKey = .ok source)
    (hdestination : Identity.fromDer ring sha256 destination.certificate destination.privateKey =
      .ok destination)
    (hostₛ hostₜ : Host) (parsersₛ parsersₜ : Parsers SocketAddr) (rootₛ rootₜ : Bytes)
    (configₛ : SourceConfig SocketAddr) (configₜ : DestinationConfig SocketAddr)
    (hloadₛ : loadSource hostₛ parsersₛ rootₛ = .ok configₛ)
    (hloadₜ : loadDestination hostₜ parsersₜ rootₜ = .ok configₜ)
    (rawₛ : RawSourceConfig) (rawₜ : RawDestinationConfig) (entry : RawDestinationRoot)
    (hrawₛ : ReadsAs hostₛ parsersₛ.source
      (joinPath (joinPath rootₛ adminDirectory) sourceConfig) rawₛ)
    (hrawₜ : ReadsAs hostₜ parsersₜ.destination
      (joinPath (joinPath rootₜ adminDirectory) destinationConfig) rawₜ)
    (hpin : rawₛ.peerPin = destination.initText) (hentry : entry ∈ rawₜ.roots)
    (hid : entry.id = rawₛ.rootId) (hlisted : source.initText ∈ entry.authorizedPeers) :
    (∀ certificate, configₛ.connect.verifyServerCert sha256 certificate = .ok () ↔
      fingerprintCertificate sha256 certificate = some destination.fingerprint) ∧
    configₛ.connect.verifyServerCert sha256 destination.certificate = .ok () ∧
    (∃ verifier, configₜ.listen = .ok verifier ∧
      verifier.verifyClientCert sha256 source.certificate = .ok ()) ∧
    ∃ root, OpensRoot hostₜ (joinPath rootₜ entry.path) root ∧
      ∀ (handle : ValidatedRoot → RootHandle) (cfg : Serving) chunks rest chain,
        cfg.roots = configₜ.configuredRoots handle →
        receiveStart cfg.limits chunks = .ok (configₛ.rootId.value, rest) →
        Destination.acceptStart cfg chunks ((peerFingerprint sha256
          (.certificates (source.certificate :: chain))).map (·.bytes)) (.ok ()) =
            .ok (handle root) := by
  obtain ⟨rawₛ', hs⟩ := loadSource_eq_ok_iff.1 hloadₛ
  obtain rfl := hs.file.unique hrawₛ
  obtain ⟨rawₜ', ht⟩ := loadDestination_eq_ok_iff.1 hloadₜ
  obtain rfl := ht.file.unique hrawₜ
  obtain ⟨-, -, hsourcePrint⟩ := fromDer_ok hsource
  obtain ⟨-, -, hdestinationPrint⟩ := fromDer_ok hdestination
  have hlists : entry.Lists source.fingerprint := ⟨_, hlisted, source.names_initText⟩
  have hpinned : configₛ.peerPin.fingerprint = destination.fingerprint := by
    have hparse := hs.peerPin
    rw [hpin, names_iff.1 destination.names_initText] at hparse
    rw [← Except.ok.inj hparse]
    rfl
  have hverify (certificate : Bytes) :
      configₛ.connect.verifyServerCert sha256 certificate = .ok () ↔
        fingerprintCertificate sha256 certificate = some destination.fingerprint := by
    simp only [SourceConfig.connect, clientTls, PinnedServerVerifier.verifyServerCert,
      verifyPin_eq_ok_iff, hpinned, decide_eq_true_iff, exists_eq_right]
  obtain ⟨root, hroot, hconfigures⟩ := exists_right_of_forall₂ ht.configures hentry
  refine ⟨hverify, (hverify _).2 hdestinationPrint, ⟨_, ht.listen, (ht.verify_iff ht.listen).2
    ⟨_, hsourcePrint, entry, hentry, hlists⟩⟩, root.root, hconfigures.opened, ?_⟩
  intro handle cfg chunks rest chain hroots hstart
  exact (ht.acceptStart_iff hroots).2 ⟨rfl, source.fingerprint, _, rest,
    Fingerprint.fromCertificateDer_eq_ok_iff.2 hsourcePrint, hstart, entry, hentry,
    hid.trans hs.rootId.symm, hlists, root.root, hconfigures.opened, rfl⟩

def sampleSource : SourceConfig String where
  root := ⟨ascii "/home", 1, 5⟩
  rootId := ⟨"notes", by decide⟩
  destination := "[::1]:4433"
  peerPin := samplePin
  globalExclusions := []
  limits := defaultLimits
  privateKey := ascii "/home/.quicsync/identity.key"

theorem sampleSource_loaded :
    loadSource sampleHost sampleParsers (ascii "/home") = .ok sampleSource := by
  refine loadSource_eq_ok_iff.2 ⟨⟨"notes", "[::1]:4433", sampleIdentity.initText, [], noLimits⟩, ?_⟩
  exact
    { opened := opensRoot_sampleHost _
      administered := administered_sampleHost _
      file := readsAs_sampleHost rfl
      rootId := rfl
      destination := rfl
      peerPin := parse_initText
      exclusions := ⟨rfl, List.nodup_nil, fun _ h => absurd h List.not_mem_nil⟩
      limits := rfl
      privateKey := by decide }

/-- Both endpoints have the identity of the sample. -/
theorem provisioned_peers_meet_sample :
    sampleSource.connect.verifyServerCert sampleSha256 sampleIdentity.certificate = .ok () ∧
      ∃ verifier, sampleDestination.listen = .ok verifier ∧
        verifier.verifyClientCert sampleSha256 sampleIdentity.certificate = .ok () := by
  have hidentity : Identity.fromDer sampleRing sampleSha256 sampleIdentity.certificate
      sampleIdentity.privateKey = .ok sampleIdentity := by
    have hself : selfSignedCertificate sampleRing () (some sampleSerial) =
        .ok sampleIdentity.certificate := rfl
    exact fromDer_selfSigned (by decide +kernel) hself rfl
  have h := provisioned_peers_meet sampleRing sampleSha256 sampleIdentity sampleIdentity hidentity
    hidentity sampleHost sampleHost sampleParsers sampleParsers (ascii "/home") (ascii "/srv")
    sampleSource sampleDestination sampleSource_loaded sampleDestination_loaded
    ⟨"notes", "[::1]:4433", sampleIdentity.initText, [], noLimits⟩
    ⟨"[::]:4433", [notesEntry, docsEntry], noLimits⟩ notesEntry (readsAs_sampleHost rfl)
    (readsAs_sampleHost rfl) rfl List.mem_cons_self rfl (List.mem_singleton_self _)
  exact ⟨h.2.1, h.2.2.1⟩

/-! ### The order of the file -/

/-- An entry with its peers in another order. -/
def RawDestinationRoot.Reorders (entry entry' : RawDestinationRoot) : Prop :=
  entry.id = entry'.id ∧ entry.path = entry'.path ∧
    entry.authorizedPeers.Perm entry'.authorizedPeers

/-- A file with its entries, and the peers of each, in another order. -/
def RawDestinationConfig.Reorders (raw raw' : RawDestinationConfig) : Prop :=
  raw.listenAddress = raw'.listenAddress ∧ raw.limits = raw'.limits ∧
    ∃ roots, raw.roots.Perm roots ∧ List.Forall₂ RawDestinationRoot.Reorders roots raw'.roots

/-- A root with its pins in another order. -/
def DestinationRoot.Reorders (root root' : DestinationRoot) : Prop :=
  root.id = root'.id ∧ root.root = root'.root ∧
    root.authorizedPeers.Perm root'.authorizedPeers

section

variable {host : Host} {setupRoot : Bytes} {entry entry' : RawDestinationRoot}
  {root : DestinationRoot} {f : Fingerprint} {raw raw' : RawDestinationConfig}

theorem RawDestinationRoot.Reorders.lists_iff (h : entry.Reorders entry') :
    entry.Lists f ↔ entry'.Lists f :=
  exists_congr fun _ => and_congr_left fun _ => h.2.2.mem_iff

/-- A reordered entry configures the root with its pins reordered. -/
theorem Configures.reorder (hroot : Configures host setupRoot entry root)
    (h : entry.Reorders entry') :
    ∃ root', Configures host setupRoot entry' root' ∧ root.Reorders root' := by
  obtain ⟨pins, hpins, hperm⟩ := List.perm_comp_forall₂ h.2.2.symm hroot.pins
  refine ⟨⟨root.id, root.root, pins⟩, ?_, rfl, rfl, hperm.symm⟩
  exact
    { id := hroot.id.trans h.1
      opened := h.2.1 ▸ hroot.opened
      authorized := fun hnil => hroot.authorized (hnil ▸ h.2.2).eq_nil
      pins := hpins
      distinct := hperm.nodup_iff.2 hroot.distinct }

theorem forall₂_configures_reorder {entries entries' : List RawDestinationRoot}
    {roots : List DestinationRoot} (hroots : List.Forall₂ (Configures host setupRoot) entries roots)
    (h : List.Forall₂ RawDestinationRoot.Reorders entries entries') :
    ∃ roots', List.Forall₂ (Configures host setupRoot) entries' roots' ∧
      List.Forall₂ DestinationRoot.Reorders roots roots' := by
  induction h generalizing roots with
  | nil =>
    rw [List.forall₂_nil_left_iff] at hroots
    subst hroots
    exact ⟨[], .nil, .nil⟩
  | cons hentry _ ih =>
    obtain ⟨root, roots', hroot, hrest, rfl⟩ := List.forall₂_cons_left_iff.1 hroots
    obtain ⟨root', hroot', hreorder⟩ := hroot.reorder hentry
    obtain ⟨roots'', hroots'', hreorders⟩ := ih hrest
    exact ⟨root' :: roots'', .cons hroot' hroots'', .cons hreorder hreorders⟩

/-- What a reordered file lists. -/
theorem RawDestinationConfig.Reorders.exists_iff (h : raw.Reorders raw')
    {P : RawDestinationRoot → Prop} (hP : ∀ entry entry', entry.Reorders entry' →
      (P entry ↔ P entry')) : (∃ entry ∈ raw.roots, P entry) ↔ ∃ entry ∈ raw'.roots, P entry := by
  obtain ⟨-, -, roots, hperm, hall⟩ := h
  constructor
  · rintro ⟨entry, hentry, hp⟩
    obtain ⟨entry', hentry', hreorder⟩ := exists_right_of_forall₂ hall (hperm.mem_iff.1 hentry)
    exact ⟨entry', hentry', (hP _ _ hreorder).1 hp⟩
  · rintro ⟨entry', hentry', hp⟩
    obtain ⟨entry, hentry, hreorder⟩ := exists_left_of_forall₂ hall hentry'
    exact ⟨entry, hperm.mem_iff.2 hentry, (hP _ _ hreorder).2 hp⟩

variable {SocketAddr : Type} {parsers parsers' : Parsers SocketAddr}
  {config : DestinationConfig SocketAddr}

theorem DestinationConfig.Accepts.reorder (h : config.Accepts host parsers setupRoot raw)
    (hreorder : raw.Reorders raw') (haddress : parsers'.address = parsers.address)
    (hfile : ReadsAs host parsers'.destination
      (joinPath (joinPath setupRoot adminDirectory) destinationConfig) raw') :
    ∃ config' : DestinationConfig SocketAddr, config'.Accepts host parsers' setupRoot raw' ∧
      config'.limits = config.limits := by
  obtain ⟨hlisten, hlimits, roots, hperm, hall⟩ := hreorder
  obtain ⟨roots₁, hroots₁, hperm₁⟩ := List.perm_comp_forall₂ hperm.symm h.configures
  obtain ⟨roots₂, hroots₂, hreorders⟩ := forall₂_configures_reorder hroots₁ hall
  have hmap {γ : Type} (g : DestinationRoot → γ)
      (hg : ∀ r r', DestinationRoot.Reorders r r' → g r = g r') : roots₁.map g = roots₂.map g := by
    rw [← List.forall₂_eq_eq_eq, List.forall₂_map_left_iff, List.forall₂_map_right_iff]
    exact hreorders.imp hg
  refine ⟨⟨config.listenAddress, roots₂, config.limits, config.privateKey⟩, ?_, rfl⟩
  exact
    { opened := h.opened
      administered := h.administered
      file := hfile
      nonempty := by
        intro hnil
        rw [hnil, List.forall₂_nil_right_iff] at hall
        rw [hall] at hperm
        exact h.nonempty hperm.eq_nil
      configures := hroots₂
      ids := by
        rw [← hmap _ fun _ _ hr => hr.1]
        exact (hperm₁.map _).nodup_iff.2 h.ids
      directories := by
        rw [← hmap _ fun _ _ hr => congrArg _ hr.2.1]
        exact (hperm₁.map _).nodup_iff.2 h.directories
      listenAddress := by
        rw [haddress, ← hlisten]
        exact h.listenAddress
      limits := hlimits ▸ h.limits
      privateKey := h.privateKey }

end

/-- The order of the entries of a file and of the peers in each does not matter: a file is accepted
in any order if it is in one, and then the same certificates are let in and the same first messages
open the same directories. -/
theorem listing_order_irrelevant (sha256 : Sha256) (host : Host) {SocketAddr : Type}
    (parsers parsers' : Parsers SocketAddr) (setupRoot : Bytes)
    (haddress : parsers'.address = parsers.address) (raw raw' : RawDestinationConfig)
    (hfile : ReadsAs host parsers.destination
      (joinPath (joinPath setupRoot adminDirectory) destinationConfig) raw)
    (hfile' : ReadsAs host parsers'.destination
      (joinPath (joinPath setupRoot adminDirectory) destinationConfig) raw')
    (hreorder : raw.Reorders raw') (config : DestinationConfig SocketAddr)
    (h : loadDestination host parsers setupRoot = .ok config) :
    ∃ config' verifier verifier', loadDestination host parsers' setupRoot = .ok config' ∧
      config'.limits = config.limits ∧
      config.listen = .ok verifier ∧ config'.listen = .ok verifier' ∧
      (∀ certificate, verifier.verifyClientCert sha256 certificate = .ok () ↔
        verifier'.verifyClientCert sha256 certificate = .ok ()) ∧
      ∀ (handle : ValidatedRoot → RootHandle) (cfg cfg' : Serving) chunks peer opened r,
        cfg.roots = config.configuredRoots handle → cfg'.roots = config'.configuredRoots handle →
        cfg.limits = cfg'.limits →
        (Destination.acceptStart cfg chunks ((peerFingerprint sha256 peer).map (·.bytes)) opened =
            .ok r ↔
          Destination.acceptStart cfg' chunks ((peerFingerprint sha256 peer).map (·.bytes)) opened =
            .ok r) := by
  obtain ⟨raw₁, haccepts⟩ := loadDestination_eq_ok_iff.1 h
  obtain rfl := haccepts.file.unique hfile
  obtain ⟨config', haccepts', hlimits⟩ := haccepts.reorder hreorder haddress hfile'
  refine ⟨config', _, _, loadDestination_eq_ok_iff.2 ⟨raw', haccepts'⟩, hlimits, haccepts.listen,
    haccepts'.listen, fun certificate => ?_, ?_⟩
  · rw [haccepts.verify_iff haccepts.listen, haccepts'.verify_iff haccepts'.listen]
    exact exists_congr fun f => and_congr_right fun _ =>
      hreorder.exists_iff fun _ _ hentry => hentry.lists_iff
  · intro handle cfg cfg' chunks peer opened r hroots hroots' hcfg
    rw [haccepts.acceptStart_iff hroots, haccepts'.acceptStart_iff hroots', hcfg]
    refine and_congr_right fun _ => exists_congr fun f => exists_congr fun rootId =>
      exists_congr fun rest => and_congr_right fun _ => and_congr_right fun _ =>
        hreorder.exists_iff fun entry entry' hentry => ?_
    rw [hentry.1, hentry.lists_iff, hentry.2.1]

/-- The two roots of the sample, the other way round. -/
theorem listing_order_irrelevant_sample : ∃ config' verifier verifier',
    loadDestination sampleHost { sampleParsers with
      destination := fun _ => .ok ⟨"[::]:4433", [docsEntry, notesEntry], noLimits⟩ }
        (ascii "/srv") = .ok config' ∧
    sampleDestination.listen = .ok verifier ∧ config'.listen = .ok verifier' ∧
    ∀ certificate, verifier.verifyClientCert sampleSha256 certificate = .ok () ↔
      verifier'.verifyClientCert sampleSha256 certificate = .ok () := by
  have hreorder : RawDestinationConfig.Reorders
      ⟨"[::]:4433", [notesEntry, docsEntry], noLimits⟩
      ⟨"[::]:4433", [docsEntry, notesEntry], noLimits⟩ :=
    ⟨rfl, rfl, _, .swap _ _ _, List.forall₂_same.2 fun _ _ => ⟨rfl, rfl, .refl _⟩⟩
  obtain ⟨config', verifier, verifier', hload, -, hlisten, hlisten', hverify, -⟩ :=
    listing_order_irrelevant sampleSha256 sampleHost sampleParsers
      { sampleParsers with
        destination := fun _ => .ok ⟨"[::]:4433", [docsEntry, notesEntry], noLimits⟩ }
      (ascii "/srv") rfl _ _ (readsAs_sampleHost rfl) (readsAs_sampleHost rfl) hreorder
      sampleDestination sampleDestination_loaded
  exact ⟨config', verifier, verifier', hload, hlisten, hlisten', hverify⟩

end QuicSync

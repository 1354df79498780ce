import Velocity.Lib.Bytes

/-! Which addresses are internal: the ranges of an address as written, and the IPv4 addresses that
an IPv6 address carries. -/

namespace IPClass

def zeros (n : Nat) : Bytes := List.replicate n 0

def mappedPrefix : Bytes := zeros 10 ++ [0xff, 0xff]

def to4 (ip : Bytes) : Option Bytes :=
  if ip.length = 4 then some ip
  else if ip.length = 16 ∧ ip.take 12 = mappedPrefix then some (ip.drop 12)
  else none

def equal (ip x : Bytes) : Bool :=
  if ip.length = x.length then ip = x
  else if ip.length = 4 ∧ x.length = 16 then mappedPrefix ++ ip = x
  else if ip.length = 16 ∧ x.length = 4 then ip = mappedPrefix ++ x
  else false

/-- A test of the IPv4 address, or else of the address itself. -/
def byVersion (v4 v6 : Bytes → Bool) (ip : Bytes) : Bool := (to4 ip).elim (v6 ip) v4

def octet (ip : Bytes) (i : Nat) : Nat := (ip.getD i 0).val

def isUnspecified (ip : Bytes) : Bool := equal ip (mappedPrefix ++ zeros 4) || equal ip (zeros 16)

def isLoopback : Bytes → Bool :=
  byVersion (fun ip => octet ip 0 = 127) fun ip => equal ip (zeros 15 ++ [1])

def isPrivate : Bytes → Bool :=
  byVersion (fun ip => octet ip 0 = 10 ∨ octet ip 0 = 172 ∧ octet ip 1 &&& 0xf0 = 16 ∨
    octet ip 0 = 192 ∧ octet ip 1 = 168) fun ip => ip.length = 16 ∧ octet ip 0 &&& 0xfe = 0xfc

def isMulticast : Bytes → Bool :=
  byVersion (fun ip => octet ip 0 &&& 0xf0 = 0xe0) fun ip => ip.length = 16 ∧ octet ip 0 = 0xff

def isLinkLocalUnicast : Bytes → Bool :=
  byVersion (fun ip => octet ip 0 = 169 ∧ octet ip 1 = 254)
    fun ip => ip.length = 16 ∧ octet ip 0 = 0xfe ∧ octet ip 1 &&& 0xc0 = 0x80

def metadataV4 : Bytes := [169, 254, 169, 254]

def metadataV6 : Bytes := [0xfd, 0, 0x0e, 0xc2] ++ zeros 10 ++ [0x02, 0x54]

def isMetadataAddr : Bytes → Bool := byVersion (equal · metadataV4) (equal · metadataV6)

/-- 0.0.0.0/8 and 100.64.0.0/10, and 2001::/32 and 64:ff9b:1::/48. -/
def isInternalAddr (ip : Bytes) : Bool :=
  isLoopback ip || isUnspecified ip || isLinkLocalUnicast ip || isMulticast ip || isPrivate ip ||
    byVersion (fun ip => octet ip 0 = 0 ∨ octet ip 0 = 100 ∧ octet ip 1 &&& 0xc0 = 64)
      (fun ip => ip.length = 16 ∧ ip.take 4 = [0x20, 0x01, 0, 0] ∨
        ip.length = 16 ∧ ip.take 6 = [0, 0x64, 0xff, 0x9b, 0, 1] ∨ equal ip metadataV6) ip

def isISATAP (ip : Bytes) : Bool :=
  octet ip 8 &&& 0xfd = 0 ∧ octet ip 9 = 0 ∧ octet ip 10 = 0x5e ∧ octet ip 11 = 0xfe

def embeddedIPv4 (ip : Bytes) : List Bytes :=
  if ip.length ≠ 16 ∨ (to4 ip).isSome then []
  else
    (if ip.take 2 = [0x20, 0x02] then [(ip.drop 2).take 4]
      else if ip.take 12 = zeros 8 ++ [0xff, 0xff, 0, 0] ∨
        ip.take 12 = [0, 0x64, 0xff, 0x9b] ++ zeros 8 ∨ ip.take 12 = zeros 12 then [ip.drop 12]
      else []) ++ if isISATAP ip then [ip.drop 12] else []

def classify (addr : Bytes → Bool) (ip : Bytes) : Bool :=
  ip ≠ [] && (addr ip || (embeddedIPv4 ip).any addr)

def isMetadataIP : Bytes → Bool := classify isMetadataAddr

def isPrivateOrInternal : Bytes → Bool := classify isInternalAddr

/-- The IPv6 spellings with a prefix of 96 bits. -/
def spellings (a : Bytes) : List Bytes :=
  [zeros 12 ++ a, mappedPrefix ++ a, zeros 8 ++ [0xff, 0xff, 0, 0] ++ a,
    [0, 0x64, 0xff, 0x9b] ++ zeros 8 ++ a]

/-- A classifier sees through the IPv6 forms of an IPv4 address. -/
structure SeesThrough (f : Bytes → Bool) (a : Bytes) : Prop where
  spelled : ∀ ip ∈ spellings a, f ip = f a
  sixToFour : ∀ rest, rest.length = 10 → isISATAP ([0x20, 0x02] ++ a ++ rest) = false →
    f ([0x20, 0x02] ++ a ++ rest) = f a
  isatap : ∀ pre u, pre.length = 8 → u = 0 ∨ u = 2 → f a = true →
    f (pre ++ [u, 0, 0x5e, 0xfe] ++ a) = true

attribute [local simp] zeros mappedPrefix to4 equal byVersion octet isUnspecified isLoopback isPrivate
  isMulticast isLinkLocalUnicast metadataV4 metadataV6 isMetadataAddr isInternalAddr isISATAP
  embeddedIPv4

variable {addr : Bytes → Bool} {ip a : Bytes} {x y z w : Byte}

theorem classify_plain : classify addr [x, y, z, w] = addr [x, y, z, w] := by simp [classify]

theorem classify_carrier (hlen : ip.length = 16) (hcarried : embeddedIPv4 ip = [a])
    (hown : addr ip = true → addr a = true) : classify addr ip = addr a := by
  have hne : ip ≠ [] := by
    rintro rfl
    cases hlen
  rw [classify, hcarried]
  cases h : addr ip with
  | true => simp [hne, hown h]
  | false => simp [hne]

theorem seesThrough_of (h : addr = isInternalAddr ∨ addr = isMetadataAddr) :
    SeesThrough (classify addr) [x, y, z, w] := by
  refine ⟨?_, ?_, ?_⟩
  · intro ip hip
    rw [classify_plain]
    simp only [spellings, List.mem_cons, List.not_mem_nil, or_false] at hip
    rcases hip with rfl | rfl | rfl | rfl
    · apply classify_carrier rfl (by simp)
      rcases h with rfl | rfl
      · simp
        grind
      · simp
    · rcases h with rfl | rfl
      · simp [classify]
      · simp [classify]
    · apply classify_carrier rfl (by simp)
      rcases h with rfl | rfl
      · simp
      · simp
    · apply classify_carrier rfl (by simp)
      rcases h with rfl | rfl
      · simp
      · simp
  · intro rest hrest hnot
    rw [classify_plain]
    apply classify_carrier
    · simp [hrest]
    · rw [embeddedIPv4, hnot]
      simp [hrest]
    · rcases h with rfl | rfl
      · simp [hrest]
      · simp [hrest]
  · intro pre u hpre hu hinternal
    rw [classify_plain] at hinternal
    have hhead : (pre ++ [u, 0, 0x5e, 0xfe]).length = 12 := by simp [hpre]
    have hid : isISATAP (pre ++ [u, 0, 0x5e, 0xfe] ++ [x, y, z, w]) = true := by
      rcases hu with rfl | rfl <;> simp [hpre]
    have hmapped : pre ++ [u, 0, 0x5e, 0xfe] ≠ mappedPrefix := by
      intro heq
      have htail := List.drop_left' hpre ▸ congrArg (List.drop 8) heq
      simp at htail
    have hnot : to4 (pre ++ [u, 0, 0x5e, 0xfe] ++ [x, y, z, w]) = none := by
      rw [to4, List.take_left' hhead, if_neg (by simp [hpre]), if_neg (hmapped ·.2)]
    rw [classify, embeddedIPv4, hnot, hid, List.drop_left' hhead]
    simp [hinternal, hpre]

theorem judged_by_carried (x y z w : Byte) :
    SeesThrough isPrivateOrInternal [x, y, z, w] ∧ SeesThrough isMetadataIP [x, y, z, w] :=
  ⟨seesThrough_of (.inl rfl), seesThrough_of (.inr rfl)⟩

end IPClass

import IoWrapper.Core.Collections
import IoWrapper.Core.Decimal

/-! `GetIPPort` of the Go servers, on the bytes of the address. The octets are parsed as
integers and then cut to a byte, so an octet that is out of range is taken modulo 256. -/
namespace IoWrapper.GoEcho.Address
open Core.Collections Core.Decimal

def colon : UInt8 := 58
def dot : UInt8 := 46

/-- `strconv.ErrSyntax` and `strconv.ErrRange`. -/
inductive NumErr where
  | invalidSyntax
  | outOfRange
deriving DecidableEq

/-- The loop of `strconv.ParseUint`, in base 10 and 64 bits. -/
def parseDigits (n : Nat) : Text → Except NumErr Nat
  | [] => .ok n
  | c :: text =>
    if IsDigit c then
      if n * 10 + digit c < 2 ^ 64 then parseDigits (n * 10 + digit c) text
      else .error .outOfRange
    else .error .invalidSyntax

def parseUint (text : Text) : Except NumErr Nat :=
  if text = [] then .error .invalidSyntax else parseDigits 0 text

/-- The sign that `strconv.ParseInt` takes off: whether it is negative, and the rest. -/
def sign : Text → Bool × Text
  | [] => (false, [])
  | c :: text =>
    if c = plus then (false, text) else if c = minus then (true, text) else (false, c :: text)

def clamp (neg : Bool) : Int := if neg then -2 ^ 63 else 2 ^ 63 - 1

/-- `strconv.Atoi` with an `int` of 64 bits; its way for short texts gives the same results. -/
def atoi (text : Text) : Int × Option NumErr :=
  let (neg, digits) := sign text
  match parseUint digits with
  | .error .invalidSyntax => (0, some .invalidSyntax)
  | .error .outOfRange => (clamp neg, some .outOfRange)
  | .ok un =>
    if neg = false ∧ 2 ^ 63 ≤ un then (clamp false, some .outOfRange)
    else if neg = true ∧ 2 ^ 63 < un then (clamp true, some .outOfRange)
    else (if neg then -un else un, none)

/-- `errors.New`, or the `*NumError` of the field that could not be parsed. -/
inductive Err where
  | new (text : String)
  | num (field : Text) (err : NumErr)
deriving DecidableEq

structure Result where
  ip : List UInt8
  port : Int
  err : Option Err
deriving DecidableEq

/-- `byte(data)`. -/
def toByte (data : Int) : UInt8 := UInt8.ofNat (data % 256).toNat

def blankIp : List UInt8 := [0, 0, 0, 0]

/-- The loop over the octets, from the `i`-th on. -/
def setOctets (i : Nat) (ip : List UInt8) : List Text → List UInt8 × Option Err
  | [] => (ip, none)
  | text :: ips =>
    match atoi text with
    | (_, some err) => (ip, some (.num text err))
    | (data, none) => setOctets (i + 1) (ip.set i (toByte data)) ips

def addrError : Result := ⟨blankIp, 0, some (.new "addr error")⟩

def parsePort (ip : List UInt8) (text : Text) : Result :=
  let (port, err) := atoi text
  ⟨ip, port, err.map (.num text)⟩

def getIPPort (address : Text) : Result :=
  match address.splitOn colon with
  | [host, port] =>
    if host = [] then parsePort blankIp port
    else
      let ips := host.splitOn dot
      if ips.length ≠ 4 then addrError
      else
        match setOctets 0 blankIp ips with
        | (ip, some err) => ⟨ip, 0, some err⟩
        | (ip, none) => parsePort ip port
  | _ => addrError

/-- The values that an `int` can have. -/
def FitsInt (v : Int) : Prop := -2 ^ 63 ≤ v ∧ v < 2 ^ 63

section Parsing

theorem parseDigits_eq_ok {n m : Nat} {text : Text} :
    parseDigits n text = .ok m ↔
      (∀ c ∈ text, IsDigit c) ∧ m = valueFrom n text ∧ (text = [] ∨ m < 2 ^ 64) := by
  induction text generalizing n with
  | nil =>
    simp only [parseDigits, Except.ok.injEq, List.not_mem_nil, false_implies, implies_true,
      true_and, true_or, and_true]
    exact eq_comm
  | cons c text ih =>
    have hle := le_valueFrom (n * 10 + digit c) text
    rw [parseDigits, valueFrom_cons, List.forall_mem_cons]
    split
    · rename_i hdigit
      split
      · rename_i hlt
        rw [ih]
        constructor
        · rintro ⟨hall, hvalue, hfits⟩
          refine ⟨⟨hdigit, hall⟩, hvalue, Or.inr ?_⟩
          rcases hfits with rfl | hfits
          · rw [hvalue]
            exact hlt
          · exact hfits
        · rintro ⟨⟨-, hall⟩, hvalue, hfits⟩
          refine ⟨hall, hvalue, ?_⟩
          rcases hfits with hnil | hfits
          · cases hnil
          · exact Or.inr hfits
      · rename_i hlarge
        constructor
        · intro h
          cases h
        · rintro ⟨-, hvalue, hfits⟩
          rcases hfits with hnil | hfits
          · cases hnil
          · omega
    · rename_i hdigit
      constructor
      · intro h
        cases h
      · rintro ⟨⟨hfirst, -⟩, -⟩
        exact absurd hfirst hdigit

theorem parseUint_eq_ok {n : Nat} {text : Text} :
    parseUint text = .ok n ↔ Digits text ∧ n = value text ∧ n < 2 ^ 64 := by
  unfold parseUint
  split
  · rename_i hnil
    constructor
    · intro h
      cases h
    · rintro ⟨hdigits, -⟩
      exact absurd hnil hdigits.nonempty
  · rename_i hne
    rw [parseDigits_eq_ok]
    constructor
    · rintro ⟨hall, hvalue, hfits⟩
      exact ⟨⟨hne, hall⟩, hvalue, hfits.resolve_left hne⟩
    · rintro ⟨hdigits, hvalue, hfits⟩
      exact ⟨hdigits.digits, hvalue, Or.inr hfits⟩

theorem sign_of_digits {text : Text} (h : Digits text) : sign text = (false, text) := by
  cases text with
  | nil => rfl
  | cons c text =>
    have hdigit := h.digits c (List.mem_cons_self ..)
    have hplus : c ≠ plus := fun heq => not_isDigit_plus (heq ▸ hdigit)
    have hminus : c ≠ minus := fun heq => not_isDigit_minus (heq ▸ hdigit)
    rw [sign, if_neg hplus, if_neg hminus]

theorem numeral_iff {text : Text} {v : Int} :
    Numeral text v ↔ Digits (sign text).2 ∧
      v = if (sign text).1 then -(value (sign text).2 : Int) else value (sign text).2 := by
  constructor
  · intro h
    cases h with
    | unsigned h =>
      rw [sign_of_digits h]
      exact ⟨h, rfl⟩
    | positive h => exact ⟨h, rfl⟩
    | negative h => exact ⟨h, rfl⟩
  · cases text with
    | nil => exact fun h => absurd rfl h.1.nonempty
    | cons c text =>
      rw [sign]
      split
      · rename_i hplus
        rintro ⟨hdigits, rfl⟩
        rw [hplus]
        exact .positive hdigits
      · split
        · rename_i hminus
          rintro ⟨hdigits, rfl⟩
          rw [hminus]
          exact .negative hdigits
        · rintro ⟨hdigits, rfl⟩
          exact .unsigned hdigits

theorem atoi_eq_ok {text : Text} {v : Int} :
    atoi text = (v, none) ↔ Numeral text v ∧ FitsInt v := by
  rw [numeral_iff]
  unfold atoi FitsInt
  rcases sign text with ⟨neg, digits⟩
  dsimp only
  cases hparse : parseUint digits with
  | error err =>
    have hno : ∀ v : Int, ¬ ((Digits digits ∧
        v = if neg then -(value digits : Int) else value digits) ∧ -2 ^ 63 ≤ v ∧ v < 2 ^ 63) := by
      rintro v ⟨⟨hdigits, hv⟩, hlow, hhigh⟩
      have hok := parseUint_eq_ok.mpr ⟨hdigits, rfl, by split at hv <;> omega⟩
      rw [hparse] at hok
      cases hok
    cases err with
    | invalidSyntax => exact ⟨nofun, fun h => absurd h (hno v)⟩
    | outOfRange => exact ⟨nofun, fun h => absurd h (hno v)⟩
  | ok un =>
    rcases parseUint_eq_ok.mp hparse with ⟨hdigits, rfl, -⟩
    dsimp only
    cases neg with
    | false =>
      by_cases hlarge : 2 ^ 63 ≤ value digits
      · rw [if_pos ⟨rfl, hlarge⟩]
        exact ⟨nofun, fun ⟨⟨_, hv⟩, _, hhigh⟩ => by dsimp at hv; omega⟩
      · rw [if_neg (fun h => hlarge h.2), if_neg (fun h => Bool.noConfusion h.1)]
        constructor
        · intro h
          cases h
          exact ⟨⟨hdigits, rfl⟩, by dsimp; omega, by dsimp; omega⟩
        · rintro ⟨⟨-, hv⟩, -⟩
          rw [hv]
    | true =>
      by_cases hlarge : 2 ^ 63 < value digits
      · rw [if_neg (fun h => Bool.noConfusion h.1), if_pos ⟨rfl, hlarge⟩]
        exact ⟨nofun, fun ⟨⟨_, hv⟩, hlow, _⟩ => by dsimp at hv; omega⟩
      · rw [if_neg (fun h => Bool.noConfusion h.1), if_neg (fun h => hlarge h.2)]
        constructor
        · intro h
          cases h
          exact ⟨⟨hdigits, rfl⟩, by dsimp; omega, by dsimp; omega⟩
        · rintro ⟨⟨-, hv⟩, -⟩
          rw [hv]

end Parsing

/-- The address is a colon and a port. -/
def Bare (address : Text) (port : Int) : Prop :=
  ∃ portText, address = colon :: portText ∧ Numeral portText port

/-- The address is four integers with dots between them, a colon, and a port. -/
def Dotted (address : Text) (octets : List Int) (port : Int) : Prop :=
  ∃ fields portText, address = [dot].intercalate fields ++ colon :: portText ∧
    List.Forall₂ Numeral fields octets ∧ octets.length = 4 ∧ Numeral portText port

section Fields

theorem colon_notMem_numeral {text : Text} {v : Int} (h : Numeral text v) : colon ∉ text :=
  h.notMem (by decide) (by decide) (by decide)

theorem dot_notMem_numeral {text : Text} {v : Int} (h : Numeral text v) : dot ∉ text :=
  h.notMem (by decide) (by decide) (by decide)

theorem splitOn_host {host portText : Text} (hhost : colon ∉ host) (hport : colon ∉ portText) :
    (host ++ colon :: portText).splitOn colon = [host, portText] := by
  rw [List.splitOn_append_cons_self_of_not_mem hhost, List.splitOn_eq_singleton hport]

theorem setOctets_eq {fields : List Text} {octets : List Int} {front rest : List UInt8}
    (h : List.Forall₂ (fun field v => atoi field = (v, none)) fields octets)
    (hlength : rest.length = octets.length) :
    setOctets front.length (front ++ rest) fields = (front ++ octets.map toByte, none) := by
  induction h generalizing front rest with
  | nil =>
    rw [List.length_eq_zero_iff.mp hlength]
    rfl
  | @cons field v fields octets hfield hfields ih =>
    rcases rest with - | ⟨b, rest⟩
    · cases hlength
    · rw [setOctets, hfield]
      dsimp only
      rw [List.set_append_right _ _ (Nat.le_refl _), Nat.sub_self, List.set_cons_zero]
      have hnext := @ih (front ++ [toByte v]) rest (by
        rw [List.length_cons, List.length_cons] at hlength
        omega)
      rw [List.length_append, List.length_singleton, List.append_assoc,
        List.singleton_append] at hnext
      rw [hnext, List.append_assoc, List.singleton_append, List.map_cons]

theorem octets_of_setOctets {fields : List Text} {i : Nat} {ip ip' : List UInt8}
    (h : setOctets i ip fields = (ip', none)) :
    ∃ octets, List.Forall₂ (fun field v => atoi field = (v, none)) fields octets := by
  induction fields generalizing i ip with
  | nil => exact ⟨[], .nil⟩
  | cons field fields ih =>
    rw [setOctets] at h
    rcases hatoi : atoi field with ⟨v, err⟩
    rw [hatoi] at h
    cases err with
    | none =>
      rcases ih h with ⟨octets, hoctets⟩
      exact ⟨v :: octets, .cons hatoi hoctets⟩
    | some err => cases h

theorem forall₂_atoi {fields : List Text} {octets : List Int} :
    List.Forall₂ (fun field v => atoi field = (v, none)) fields octets ↔
      List.Forall₂ Numeral fields octets ∧ ∀ v ∈ octets, FitsInt v := by
  constructor
  · intro h
    induction h with
    | nil => exact ⟨.nil, fun _ hv => absurd hv List.not_mem_nil⟩
    | cons hfield _ ih =>
      rcases atoi_eq_ok.mp hfield with ⟨hnumeral, hfits⟩
      exact ⟨.cons hnumeral ih.1, List.forall_mem_cons.mpr ⟨hfits, ih.2⟩⟩
  · rintro ⟨h, hfits⟩
    induction h with
    | nil => exact .nil
    | cons hnumeral _ ih =>
      rcases List.forall_mem_cons.mp hfits with ⟨hfirst, hrest⟩
      exact .cons (atoi_eq_ok.mpr ⟨hnumeral, hfirst⟩) (ih hrest)

end Fields

section Addresses

variable {address : Text} {octets : List Int} {port : Int}

theorem parsePort_eq {portText : Text} (ip : List UInt8) (h : Numeral portText port)
    (hfits : FitsInt port) : parsePort ip portText = ⟨ip, port, none⟩ := by
  rw [parsePort, atoi_eq_ok.mpr ⟨h, hfits⟩]
  rfl

theorem port_of_parsePort {portText : Text} {ip : List UInt8}
    (h : (parsePort ip portText).err = none) :
    Numeral portText (parsePort ip portText).port ∧ FitsInt (parsePort ip portText).port := by
  rcases hatoi : atoi portText with ⟨v, err⟩
  rw [parsePort, hatoi] at h ⊢
  rw [Option.map_eq_none_iff.mp h] at hatoi
  exact atoi_eq_ok.mp hatoi

theorem Bare.getIPPort (h : Bare address port) (hfits : FitsInt port) :
    getIPPort address = ⟨blankIp, port, none⟩ := by
  rcases h with ⟨portText, rfl, hport⟩
  have hsplit := splitOn_host (List.not_mem_nil) (colon_notMem_numeral hport)
  rw [List.nil_append] at hsplit
  rw [Address.getIPPort, hsplit]
  exact parsePort_eq blankIp hport hfits

theorem Bare.count_colon (h : Bare address port) : address.count colon = 1 := by
  rcases h with ⟨portText, rfl, hport⟩
  rw [List.count_cons_self, List.count_eq_zero_of_not_mem (colon_notMem_numeral hport)]

theorem notMem_intercalate {c : UInt8} {fields : List Text} (hdot : c ≠ dot)
    (h : ∀ field ∈ fields, c ∉ field) : c ∉ [dot].intercalate fields := by
  induction fields with
  | nil => exact List.not_mem_nil
  | cons field fields ih =>
    have hfirst := h field (List.mem_cons_self ..)
    have hrest := ih fun other hother => h other (List.mem_cons_of_mem _ hother)
    cases fields with
    | nil =>
      rw [List.intercalate_singleton]
      exact hfirst
    | cons other fields =>
      rw [List.intercalate_cons_cons, List.mem_append, List.mem_append, List.mem_singleton]
      rintro ((hmem | heq) | hmem)
      · exact hfirst hmem
      · exact hdot heq
      · exact hrest hmem

structure Splits (fields : List Text) (portText : Text) : Prop where
  host : colon ∉ [dot].intercalate fields
  address : ([dot].intercalate fields ++ colon :: portText).splitOn colon =
    [[dot].intercalate fields, portText]
  fields : ([dot].intercalate fields).splitOn dot = fields

theorem splits_fields {fields : List Text} {portText : Text}
    (h : List.Forall₂ Numeral fields octets) (hlength : octets.length = 4)
    (hport : Numeral portText port) : Splits fields portText := by
  have hsep : ∀ field ∈ fields, colon ∉ field ∧ dot ∉ field := by
    intro field hfield
    rcases exists_of_forall₂ h hfield with ⟨v, -, hv⟩
    exact ⟨colon_notMem_numeral hv, dot_notMem_numeral hv⟩
  have hhost : colon ∉ [dot].intercalate fields :=
    notMem_intercalate (by decide) fun field hfield => (hsep field hfield).1
  have hne : fields ≠ [] := by
    intro hnil
    rw [← h.length_eq, hnil] at hlength
    cases hlength
  exact ⟨hhost, splitOn_host hhost (colon_notMem_numeral hport),
    List.splitOn_intercalate dot (fun field hfield => (hsep field hfield).2) hne⟩

theorem Dotted.getIPPort (h : Dotted address octets port)
    (hfits : ∀ v ∈ port :: octets, FitsInt v) :
    getIPPort address = ⟨octets.map toByte, port, none⟩ := by
  rcases h with ⟨fields, portText, rfl, hfields, hlength, hport⟩
  have hcount : fields.length = 4 := hfields.length_eq.trans hlength
  have hsplits := splits_fields hfields hlength hport
  have hne : [dot].intercalate fields ≠ [] := by
    intro hnil
    have hdots := hsplits.fields
    rw [hnil, List.splitOn_nil] at hdots
    rw [← hdots] at hcount
    cases hcount
  have hatoi := forall₂_atoi.mpr ⟨hfields, fun v hv => hfits v (List.mem_cons_of_mem _ hv)⟩
  have hset := @setOctets_eq fields octets [] blankIp hatoi hlength.symm
  rw [Address.getIPPort, hsplits.address]
  dsimp only
  rw [if_neg hne, hsplits.fields, if_neg (fun hnot => hnot hcount)]
  rw [List.length_nil, List.nil_append, List.nil_append] at hset
  rw [hset]
  exact parsePort_eq _ hport (hfits port (List.mem_cons_self ..))

theorem Dotted.count_colon (h : Dotted address octets port) : address.count colon = 1 := by
  rcases h with ⟨fields, portText, rfl, hfields, hlength, hport⟩
  have hsplits := splits_fields hfields hlength hport
  rw [List.count_append, List.count_cons_self, List.count_eq_zero_of_not_mem hsplits.host,
    List.count_eq_zero_of_not_mem (colon_notMem_numeral hport)]

theorem form_of_accepted (h : (getIPPort address).err = none) :
    (∃ port, Bare address port ∧ FitsInt port) ∨
      ∃ octets port, Dotted address octets port ∧ ∀ v ∈ port :: octets, FitsInt v := by
  have haddress : [colon].intercalate (address.splitOn colon) = address :=
    List.intercalate_splitOn colon
  rw [getIPPort] at h
  split at h
  · rename_i host portText hsplit
    rw [hsplit, List.intercalate_cons_cons, List.intercalate_singleton, List.append_assoc,
      List.singleton_append] at haddress
    split at h
    · rename_i hhost
      rcases port_of_parsePort h with ⟨hport, hfits⟩
      rw [hhost, List.nil_append] at haddress
      exact Or.inl ⟨_, ⟨portText, haddress.symm, hport⟩, hfits⟩
    · dsimp only at h
      split at h
      · cases h
      · rename_i hlength
        split at h
        · cases h
        · rename_i ip hset
          rcases port_of_parsePort h with ⟨hport, hfits⟩
          rcases octets_of_setOctets hset with ⟨octets, hoctets⟩
          rcases forall₂_atoi.mp hoctets with ⟨hfields, hall⟩
          refine Or.inr ⟨octets, _, ⟨host.splitOn dot, portText, ?_, hfields, ?_, hport⟩,
            List.forall_mem_cons.mpr ⟨hfits, hall⟩⟩
          · rw [List.intercalate_splitOn]
            exact haddress.symm
          · rw [← hfields.length_eq]
            exact Decidable.not_not.mp hlength
  · cases h

def IsOctet (v : Int) : Prop := 0 ≤ v ∧ v ≤ 255

/-- The part before the first colon has an integer that is no octet. -/
def OutOfRange (address : Text) : Prop :=
  ∃ host rest, address = host ++ colon :: rest ∧ colon ∉ host ∧
    ∃ field ∈ host.splitOn dot, ∃ v, Numeral field v ∧ ¬ IsOctet v

/-- What is accepted is well formed and means what is returned, and no octet is out of range. -/
structure Sound (address : Text) : Prop where
  accepted : (getIPPort address).err = none → address.count colon = 1 ∧
    ((Bare address (getIPPort address).port ∧ (getIPPort address).ip = [0, 0, 0, 0]) ∨
      ∃ octets, Dotted address octets (getIPPort address).port ∧ (∀ v ∈ octets, IsOctet v) ∧
        (getIPPort address).ip.map (fun b => (b.toNat : Int)) = octets)
  rejected : OutOfRange address → (getIPPort address).err ≠ none

theorem numeral_unique {text : Text} {v w : Int} (h : Numeral text v) (h' : Numeral text w) :
    v = w :=
  (numeral_iff.mp h).2.trans (numeral_iff.mp h').2.symm

theorem host_unique {host rest host' portText : Text} (hhost : colon ∉ host)
    (hsplit : (host' ++ colon :: portText).splitOn colon = [host', portText])
    (heq : host' ++ colon :: portText = host ++ colon :: rest) : host = host' := by
  rw [heq, List.splitOn_append_cons_self_of_not_mem hhost] at hsplit
  exact (List.cons.inj hsplit).1

theorem Bare.not_outOfRange (h : Bare address port) : ¬ OutOfRange address := by
  rcases h with ⟨portText, rfl, hport⟩
  rintro ⟨host, rest, heq, hhost, field, hfield, v, hv, -⟩
  have hsplit := splitOn_host List.not_mem_nil (colon_notMem_numeral hport)
  rw [host_unique hhost hsplit heq, List.splitOn_nil, List.mem_singleton] at hfield
  rw [hfield, numeral_iff] at hv
  exact hv.1.nonempty rfl

theorem Dotted.not_outOfRange (h : Dotted address octets port) (hall : ∀ v ∈ octets, IsOctet v) :
    ¬ OutOfRange address := by
  rcases h with ⟨fields, portText, rfl, hfields, hlength, hport⟩
  rintro ⟨host, rest, heq, hhost, field, hfield, v, hv, hout⟩
  have hsplits := splits_fields hfields hlength hport
  rw [host_unique hhost hsplits.address heq, hsplits.fields] at hfield
  rcases exists_of_forall₂ hfields hfield with ⟨w, hw, hnumeral⟩
  rw [numeral_unique hv hnumeral] at hout
  exact hout (hall w hw)

theorem Dotted.outOfRange {v : Int} (h : Dotted address octets port) (hv : v ∈ octets)
    (hout : ¬ IsOctet v) : OutOfRange address := by
  rcases h with ⟨fields, portText, rfl, hfields, hlength, hport⟩
  have hsplits := splits_fields hfields hlength hport
  have hflip : List.Forall₂ (flip Numeral) octets fields := List.Forall₂.flip hfields
  rcases exists_of_forall₂ hflip hv with ⟨field, hfield, hnumeral⟩
  refine ⟨_, portText, rfl, hsplits.host, field, ?_, v, hnumeral, hout⟩
  rw [hsplits.fields]
  exact hfield

theorem toNat_toByte {v : Int} (h : IsOctet v) : ((toByte v).toNat : Int) = v := by
  rcases h with ⟨hlow, hhigh⟩
  unfold toByte
  rw [UInt8.toNat_ofNat']
  omega

theorem map_toByte (h : ∀ v ∈ octets, IsOctet v) :
    (octets.map toByte).map (fun b => (b.toNat : Int)) = octets := by
  rw [List.map_map]
  conv_rhs => rw [← List.map_id octets]
  exact List.map_congr_left fun v hv => toNat_toByte (h v hv)

/-- The address means what is returned, unless it is four integers and a port with an integer
among the four that is no octet: such an address is accepted. -/
theorem sound_iff (address : Text) :
    Sound address ↔ ∀ octets port, Dotted address octets port →
      (∀ v ∈ port :: octets, FitsInt v) → ∀ v ∈ octets, IsOctet v := by
  constructor
  · intro hsound octets port hdotted hfits v hv
    by_contra hout
    apply hsound.rejected (hdotted.outOfRange hv hout)
    rw [hdotted.getIPPort hfits]
  · intro hoctets
    constructor
    case accepted =>
      intro hnone
      rcases form_of_accepted hnone with ⟨port, hbare, hfits⟩ | ⟨octets, port, hdotted, hfits⟩
      · rw [hbare.getIPPort hfits]
        exact ⟨hbare.count_colon, Or.inl ⟨hbare, rfl⟩⟩
      · have hall := hoctets octets port hdotted hfits
        rw [hdotted.getIPPort hfits]
        exact ⟨hdotted.count_colon, Or.inr ⟨octets, hdotted, hall, map_toByte hall⟩⟩
    case rejected =>
      intro hout hnone
      rcases form_of_accepted hnone with ⟨port, hbare, -⟩ | ⟨octets, port, hdotted, hfits⟩
      · exact hbare.not_outOfRange hout
      · exact hdotted.not_outOfRange (hoctets octets port hdotted hfits) hout

end Addresses

def ascii (text : String) : Text := text.toList.map fun c => UInt8.ofNat c.toNat

theorem out_of_range_accepted :
    getIPPort (ascii "256.0.0.1:80") = ⟨[0, 0, 0, 1], 80, none⟩ ∧
      ¬ Sound (ascii "256.0.0.1:80") := by
  have haccepted : getIPPort (ascii "256.0.0.1:80") = ⟨[0, 0, 0, 1], 80, none⟩ := by
    decide +kernel
  refine ⟨haccepted, fun hsound => hsound.rejected ?_ (by rw [haccepted])⟩
  have hdigits : Digits (ascii "256") := ⟨by decide +kernel, by decide +kernel⟩
  exact ⟨ascii "256.0.0.1", ascii "80", by decide +kernel, by decide +kernel, ascii "256",
    by decide +kernel, _, .unsigned hdigits, fun hoctet => absurd hoctet.2 (by decide +kernel)⟩

def printAddress (a b c d : UInt8) (port : UInt16) : Text :=
  [dot].intercalate [print a.toNat, print b.toNat, print c.toNat, print d.toNat] ++
    colon :: print port.toNat

theorem fitsInt_of_lt {n : Nat} (h : n < 2 ^ 16) : FitsInt n := by
  unfold FitsInt
  omega

theorem toByte_toNat (b : UInt8) : toByte b.toNat = b := by
  have hlt := b.toNat_lt
  apply UInt8.toNat_inj.mp
  unfold toByte
  rw [UInt8.toNat_ofNat']
  omega

/-- An address that has been printed is read back. -/
theorem getIPPort_print (a b c d : UInt8) (port : UInt16) :
    getIPPort (printAddress a b c d port) = ⟨[a, b, c, d], port.toNat, none⟩ ∧
      getIPPort (colon :: print port.toNat) = ⟨[0, 0, 0, 0], port.toNat, none⟩ := by
  have hport := fitsInt_of_lt port.toNat_lt
  have hoctet : ∀ octet : UInt8, FitsInt octet.toNat :=
    fun octet => fitsInt_of_lt (Nat.lt_trans octet.toNat_lt (by decide))
  constructor
  · have hdotted : Dotted (printAddress a b c d port) [a.toNat, b.toNat, c.toNat, d.toNat]
        port.toNat :=
      ⟨_, _, rfl, .cons (numeral_print _) (.cons (numeral_print _) (.cons (numeral_print _)
        (.cons (numeral_print _) .nil))), rfl, numeral_print _⟩
    rw [hdotted.getIPPort (by
      intro v hv
      simp only [List.mem_cons, List.not_mem_nil, or_false] at hv
      rcases hv with rfl | rfl | rfl | rfl | rfl
      · exact hport
      · exact hoctet a
      · exact hoctet b
      · exact hoctet c
      · exact hoctet d)]
    simp only [List.map_cons, List.map_nil, toByte_toNat]
  · exact Bare.getIPPort ⟨_, rfl, numeral_print _⟩ hport

end IoWrapper.GoEcho.Address

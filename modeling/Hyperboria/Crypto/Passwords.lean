/-
Passwords in `crypto/CryptoAuth.c`: those a session shows when it says hello, and those a
node lets in.

`CryptoAuth_setAuth` should put the credentials of the last call into the next hello. It
compares only the password with the one that is there, and a call without a password
falls into the wrong branch if there is nothing to take away (`last_setAuth_iff`).

`getAuth` takes the first user whose login or whose password has the hash it looks for.
`CryptoAuth_addUser_ipv6` refuses a user only if both are there already, and the names it
makes up for users without a login come again after users were removed. So a user is found
under its own login and password only if no other has them (`logsIn_iff`).
-/
import Hyperboria.Crypto.Stages
import Hyperboria.Crypto.Symbolic

namespace Hyperboria.CryptoAuth

open List

variable {C : Crypto}

/-! ## What a hello shows -/

/-- What a hello is made from: the type of the challenge, the login if the type asks for it, and the password. -/
structure Credentials where
  authType : UInt8
  login : Option (List UInt8)
  password : Option (List UInt8)
deriving DecidableEq

/-- The credentials `encryptHandshake` takes from a session. -/
def credentials (session : Session C) : Credentials :=
  { authType := session.authType
    login := if session.authType = 2 ∧ session.password.isSome then session.login else none
    password := session.password }

/-- The password hash and the challenge for credentials. -/
def Credentials.challenge (C : Crypto) (draw : Draw) (shown : Credentials) : Er (Option Key × Challenge) :=
  match shown.password with
  | some password => do
    let (hash, auth) ← hashPassword C shown.login password shown.authType
    .ret (some hash, auth)
  | none => .ret (none, { draw.auth with type := shown.authType, additional := 0 })

theorem hashPassword_login (login : Option (List UInt8)) (password : List UInt8) (authType : UInt8) :
    hashPassword C (if authType = 2 then login else none) password authType = hashPassword C login password authType := by
  by_cases htype : authType = 2
  · rw [if_pos htype]
  · simp [hashPassword, if_neg htype]

theorem passwordAuth_eq (draw : Draw) (session : Session C) :
    passwordAuth draw session = (credentials session).challenge C draw := by
  unfold passwordAuth Credentials.challenge credentials
  cases hpassword : session.password with
  | none => rfl
  | some password =>
    simp only [Option.isSome_some, and_true]
    rw [hashPassword_login]

/-- The challenge of a handshake packet, and the password hash in its secret, are made from the credentials. -/
theorem encryptHandshake_shows {ca} {draw} {session session'} {msg}
    {packet} (h : encryptHandshake ca draw session msg = .ret (session', packet)) :
    ∃ hash herKey, (credentials session).challenge C draw = .ret (hash, packet.auth) ∧
      packet.box = C.afternm (C.getSharedSecret ca.privateKey herKey hash) draw.handshakeNonce
        (session'.ourTempPubKey.1 ++ msg) := by
  simp only [encryptHandshake, Er.bind_eq_ret, Prod.exists] at h
  obtain ⟨_, _, hash, auth, hauth, _, _, secret, session'', hsecret, _, _, h⟩ := h
  cases h
  rw [passwordAuth_eq] at hauth
  obtain ⟨-, rfl, -⟩ | ⟨-, rfl, -⟩ := handshakeSecret_cases hsecret
  · exact ⟨hash, _, hauth, rfl⟩
  · exact ⟨hash, _, hauth, rfl⟩

/-- The arguments of a call of `CryptoAuth_setAuth`. -/
structure Call where
  password : Option (List UInt8)
  login : Option (List UInt8)

/-- What the call is about. -/
def Call.meant (call : Call) : Credentials :=
  match call.password, call.login with
  | none, _ => { authType := 0, login := none, password := none }
  | some password, none => { authType := 1, login := none, password := some password }
  | some password, some login => { authType := 2, login := some login, password := some password }

/-- The calls one after the other. -/
def setAuths (calls : List Call) (session : Session C) : Session C :=
  calls.foldl (fun session call => setAuth call.password call.login session) session

/-- There is something to take away, or the password is a new one, or it is there with this login already. -/
def Call.Takes (call : Call) (session : Session C) : Prop :=
  match call.password with
  | none => session.password.isSome ∨ session.authType ≠ 0
  | some password => session.password = some password →
    match call.login with
    | none => session.authType = 1
    | some login => session.authType = 2 ∧ session.login = some login

theorem setAuth_iff (call : Call) (session : Session C) :
    credentials (setAuth call.password call.login session) = call.meant ↔ call.Takes session := by
  obtain ⟨password, login⟩ := call
  unfold setAuth Call.meant Call.Takes
  cases password with
  | none =>
    by_cases hthere : session.password.isSome ∨ session.authType ≠ 0
    · rw [if_pos ⟨rfl, hthere⟩]
      exact iff_of_true rfl hthere
    · have hnone : session.password.isNone := by simpa using fun h => hthere (.inl h)
      rw [if_neg fun h => hthere h.2, if_pos (.inl hnone)]
      refine iff_of_false (fun h => ?_) hthere
      cases login with
      | none =>
        have htype : (1 : UInt8) = 0 := congrArg Credentials.authType h
        exact absurd htype (by decide)
      | some login =>
        have htype : (2 : UInt8) = 0 := congrArg Credentials.authType h
        exact absurd htype (by decide)
  | some password =>
    rw [if_neg fun h => Bool.false_ne_true h.1]
    by_cases hsame : session.password = some password
    · rw [if_neg (by simp [hsame])]
      unfold credentials
      simp only [hsame, Option.isSome_some, true_imp_iff]
      cases login with
      | none =>
        simp only [Credentials.mk.injEq, and_true]
        exact and_iff_left_of_imp fun h => by rw [h]; rfl
      | some login =>
        simp only [Credentials.mk.injEq, and_true]
        exact and_congr_right fun h => by rw [if_pos h]
    · rw [if_pos (.inr hsame)]
      cases login with
      | none | some login => exact iff_of_true rfl fun h => absurd h hsame

/-- After any calls, the last one decides what the next hello shows if and only if it takes. -/
theorem last_setAuth_iff (session : Session C) (calls : List Call) (last : Call) :
    credentials (setAuths (calls ++ [last]) session) = last.meant ↔ last.Takes (setAuths calls session) := by
  unfold setAuths
  rw [foldl_append]
  exact setAuth_iff last _

/-- A call with the old password does not change the login, and a first call without a password asks for
authentication all the same. -/
theorem setAuth_not_taken :
    credentials (setAuths [⟨some [1], some [2]⟩, ⟨some [1], some [3]⟩] (newSession Symbolic.crypto 0 .zero false)) =
        { authType := 2, login := some [2], password := some [1] } ∧
      Call.meant ⟨some [1], some [3]⟩ = { authType := 2, login := some [3], password := some [1] } ∧
      credentials (setAuths [⟨none, none⟩] (newSession Symbolic.crypto 0 .zero false)) =
        { authType := 1, login := none, password := none } ∧
      Call.meant ⟨none, none⟩ = { authType := 0, login := none, password := none } :=
  ⟨rfl, rfl, rfl, rfl⟩

/-! ## The users of a node -/

/-- `struct CryptoAuth_User` with its login. -/
structure Registered where
  login : List UInt8
  user : User

/-- The login of a user without one. -/
def anonymous (i : Nat) : List UInt8 := s!"Anon #{i}".toUTF8.data.toList

/-- `CryptoAuth_addUser_DUPLICATE`. -/
def addUserDuplicate : Int := -3

/-- `CryptoAuth_addUser_ipv6`: what it returns, and the users. -/
def addUserIpv6 (C : Crypto) (password : List UInt8) (login : Option (List UInt8)) (ipv6 : Option (List UInt8))
    (users : List Registered) : Er (Int × List Registered) := do
  let login := login.getD (anonymous users.length)
  let (_, userName) ← hashPassword C (some login) password 2
  let (secret, ac) ← hashPassword C none password 1
  if users.any fun u => secret = u.user.secret ∧ login = u.login then .ret (addUserDuplicate, users)
  else
    .ret (0, users ++ [{ login, user :=
      { passwordHash := ac.key, userNameHash := userName.key, secret
        restrictedToip6 := ipv6.getD (List.replicate 16 0) } }])

/-- `CryptoAuth_removeUsers`: how many it removes, and the users that are left. -/
def removeUsers (login : Option (List UInt8)) (users : List Registered) : Nat × List Registered :=
  let removed := fun u : Registered => login.isNone ∨ login = some u.login
  (users.countP removed, users.filter fun u => ¬ removed u)

/-- A user as it was added. -/
structure Account where
  login : List UInt8
  password : List UInt8
  ip6 : List UInt8

inductive Op where
  | add (password : List UInt8) (login ipv6 : Option (List UInt8))
  | remove (login : Option (List UInt8))

/-- The users of a node, and the accounts whose add returned 0 and that were not removed since. -/
structure Users where
  users : List Registered
  live : List Account

def step (C : Crypto) (s : Users) : Op → Er Users
  | .add password login ipv6 => do
    let (ret, users) ← addUserIpv6 C password login ipv6 s.users
    let account : Account :=
      { login := login.getD (anonymous s.users.length), password, ip6 := ipv6.getD (List.replicate 16 0) }
    .ret { users, live := if ret = 0 then s.live ++ [account] else s.live }
  | .remove login =>
    .ret { users := (removeUsers login s.users).2
           live := s.live.filter fun a => ¬ (login.isNone ∨ login = some a.login) }

/-- The calls one after the other. -/
def run (C : Crypto) (ops : List Op) : Er Users := ops.foldlM (step C) { users := [], live := [] }

/-! What is in a `CryptoAuth_User`. -/

/-- The bytes of a hash that go into a challenge. -/
def lookupOf (C : Crypto) (bytes : List UInt8) : List UInt8 := ((C.sha256 bytes).1.drop 1).take 7

/-- The challenge of a login. -/
def loginChallenge (C : Crypto) (login : List UInt8) : Challenge :=
  { type := 2, lookup := lookupOf C login, derivations := 0, additional := 0 }

/-- The challenge of a password. -/
def passwordChallenge (C : Crypto) (password : List UInt8) : Challenge :=
  { type := 1, lookup := lookupOf C (C.sha256 password).1, derivations := 0, additional := 0 }

theorem hashPassword_two (login password : List UInt8) :
    hashPassword C (some login) password 2 = .ret (C.sha256 password, loginChallenge C login) := rfl

theorem hashPassword_one (password : List UInt8) :
    hashPassword C none password 1 = .ret (C.sha256 password, passwordChallenge C password) := rfl

def Account.user (C : Crypto) (a : Account) : User :=
  { passwordHash := (1, lookupOf C (C.sha256 a.password).1), userNameHash := (2, lookupOf C a.login)
    secret := C.sha256 a.password, restrictedToip6 := a.ip6 }

def Account.registered (C : Crypto) (a : Account) : Registered := { login := a.login, user := a.user C }

/-- The challenges by which the account can be asked for, and the user that is found. -/
structure LogsIn (C : Crypto) (ca : Context) (a : Account) : Prop where
  byLogin : ∃ auth, hashPassword C (some a.login) a.password 2 = .ret (C.sha256 a.password, auth) ∧
    getAuth auth ca = some (a.user C)
  byPassword : ∃ auth, hashPassword C none a.password 1 = .ret (C.sha256 a.password, auth) ∧
    getAuth auth ca = some (a.user C)

/-- No two of these accounts have different logins or passwords with one hash. -/
structure CollisionFree (C : Crypto) (accounts : List Account) : Prop where
  login : ∀ a ∈ accounts, ∀ b ∈ accounts, lookupOf C a.login = lookupOf C b.login → a.login = b.login
  password : ∀ a ∈ accounts, ∀ b ∈ accounts,
    lookupOf C (C.sha256 a.password).1 = lookupOf C (C.sha256 b.password).1 → a.password = b.password

/-- The users are those of the accounts, and no two accounts have the login and the secret in common. -/
structure Kept (C : Crypto) (s : Users) : Prop where
  users_eq : s.users = s.live.map (Account.registered C)
  apart : s.live.Pairwise fun a b => ¬ (C.sha256 b.password = C.sha256 a.password ∧ b.login = a.login)

theorem Kept.step {s} (h : Kept C s) (op : Op) : ∃ s', step C s op = .ret s' ∧ Kept C s' := by
  cases op with
  | add password login ipv6 =>
    let account : Account :=
      { login := login.getD (anonymous s.users.length), password, ip6 := ipv6.getD (List.replicate 16 0) }
    have hadd : addUserIpv6 C password login ipv6 s.users =
        if s.users.any fun u => C.sha256 password = u.user.secret ∧ account.login = u.login then
          .ret (addUserDuplicate, s.users)
        else .ret (0, s.users ++ [account.registered C]) := rfl
    by_cases hthere : s.users.any fun u => C.sha256 password = u.user.secret ∧ account.login = u.login
    · refine ⟨s, ?_, h⟩
      rw [CryptoAuth.step, hadd, if_pos hthere]
      rfl
    · refine ⟨⟨s.users ++ [account.registered C], s.live ++ [account]⟩, ?_, ?_, ?_⟩
      · rw [CryptoAuth.step, hadd, if_neg hthere]
        rfl
      · rw [map_append, h.users_eq]
        rfl
      · refine pairwise_append.mpr ⟨h.apart, pairwise_singleton _ _, fun a ha b hb => ?_⟩
        obtain rfl := mem_singleton.mp hb
        intro hsame
        refine hthere (any_eq_true.mpr ⟨a.registered C, ?_, decide_eq_true hsame⟩)
        rw [h.users_eq]
        exact mem_map_of_mem ha
  | remove login =>
    refine ⟨_, rfl, ?_, h.apart.filter _⟩
    dsimp [removeUsers]
    rw [h.users_eq, filter_map]
    rfl

variable {s : Users}

theorem Kept.foldlM (h : Kept C s) (ops : List Op) :
    ∃ s', ops.foldlM (CryptoAuth.step C) s = .ret s' ∧ Kept C s' := by
  induction ops generalizing s with
  | nil => exact ⟨s, rfl, h⟩
  | cons op ops ih =>
    obtain ⟨s₁, hstep, h₁⟩ := h.step op
    rw [foldlM_cons, hstep]
    exact ih h₁

theorem run_kept (C : Crypto) (ops : List Op) : ∃ s, run C ops = .ret s ∧ Kept C s :=
  Kept.foldlM ⟨rfl, List.Pairwise.nil⟩ ops

/-! ## Whom `getAuth` finds -/

/-- In a list without repetition, all members are the first with their key if and only if no two have one key. -/
theorem find?_key_iff {α κ : Type} [DecidableEq κ] {l : List α} (hl : l.Nodup) (key : α → κ) :
    (∀ a ∈ l, l.find? (fun b => key b = key a) = some a) ↔ (l.map key).Nodup := by
  rw [nodup_map_iff_inj_on hl]
  constructor
  · intro h a ha b hb hkey
    have hfound := h a ha
    rw [hkey, h b hb] at hfound
    exact (Option.some.inj hfound).symm
  · intro h a ha
    cases hfound : l.find? (fun b => key b = key a) with
    | none => exact absurd (decide_eq_true rfl) (find?_eq_none.mp hfound a ha)
    | some b =>
      have hkey : key b = key a := by simpa using find?_some hfound
      rw [h b (mem_of_find?_eq_some hfound) a ha hkey]

variable {a : Account}

theorem CollisionFree.user_inj {accounts} (h : CollisionFree C accounts) {b}
    (ha : a ∈ accounts) (hb : b ∈ accounts) (hab : a.user C = b.user C) : a = b := by
  have hlogin := h.login a ha b hb (congrArg (fun u : User => u.userNameHash.2) hab)
  have hpassword := h.password a ha b hb (congrArg (fun u : User => u.passwordHash.2) hab)
  have hip6 : a.ip6 = b.ip6 := congrArg User.restrictedToip6 hab
  cases a
  cases b
  simp only at hlogin hpassword hip6
  rw [hlogin, hpassword, hip6]

variable (hs : Kept C s) (hfree : CollisionFree C s.live)
include hs hfree

/-- What `getAuth` finds is the first account the challenge fits. -/
theorem getAuth_iff (ca : Context) (auth : Challenge)
    (htype : auth.type ≠ 0) (fits : Account → Prop) [DecidablePred fits]
    (hfits : ∀ b ∈ s.live, (auth.type = 1 ∧ auth.key = (b.user C).passwordHash ∨
      auth.type = 2 ∧ auth.key = (b.user C).userNameHash) ↔ fits b)
    (ha : a ∈ s.live) :
    getAuth auth { ca with users := s.users.map Registered.user } = some (a.user C) ↔
      s.live.find? (fun b => fits b) = some a := by
  have husers : s.users.map Registered.user = s.live.map (Account.user C) := by
    rw [hs.users_eq, map_map]
    rfl
  have hfind : s.live.find? ((fun u : User => (auth.type = 1 && auth.key = u.passwordHash) ||
      (auth.type = 2 && auth.key = u.userNameHash)) ∘ Account.user C) = s.live.find? (fun b => fits b) :=
    find?_congr fun b hb => by
      simp [← hfits b hb]
  unfold getAuth
  rw [if_neg htype, husers, find?_map, hfind]
  constructor
  · intro hfound
    obtain ⟨b, hb, hab⟩ := Option.map_eq_some_iff.mp hfound
    rw [hb, hfree.user_inj (mem_of_find?_eq_some hb) ha hab]
  · intro hfound
    rw [hfound]
    rfl

theorem getAuth_login_iff (ca : Context) (ha : a ∈ s.live) :
    getAuth (loginChallenge C a.login) { ca with users := s.users.map Registered.user } = some (a.user C) ↔
      s.live.find? (fun b => b.login = a.login) = some a := by
  refine getAuth_iff hs hfree ca _ (show (2 : UInt8) ≠ 0 by decide) (fun b => b.login = a.login) (fun b hb => ?_) ha
  constructor
  · rintro (⟨htype, -⟩ | ⟨-, hkey⟩)
    · exact absurd (show (2 : UInt8) = 1 from htype) (by decide)
    · exact (hfree.login a ha b hb (congrArg Prod.snd hkey)).symm
  · exact fun h => .inr ⟨rfl, congrArg (fun login => (2, lookupOf C login)) h.symm⟩

theorem getAuth_password_iff (ca : Context) (ha : a ∈ s.live) :
    getAuth (passwordChallenge C a.password) { ca with users := s.users.map Registered.user } = some (a.user C) ↔
      s.live.find? (fun b => b.password = a.password) = some a := by
  refine getAuth_iff hs hfree ca _ (show (1 : UInt8) ≠ 0 by decide) (fun b => b.password = a.password)
    (fun b hb => ?_) ha
  constructor
  · rintro (⟨-, hkey⟩ | ⟨htype, -⟩)
    · exact (hfree.password a ha b hb (congrArg Prod.snd hkey)).symm
    · exact absurd (show (1 : UInt8) = 2 from htype) (by decide)
  · exact fun h => .inl ⟨rfl, congrArg (fun password => (1, lookupOf C (C.sha256 password).1)) h.symm⟩

omit hs hfree

theorem Kept.nodup (h : Kept C s) : s.live.Nodup := by
  refine h.apart.imp fun hab heq => hab ?_
  rw [heq]
  exact ⟨rfl, rfl⟩

/-- After any calls, all users can log in with their login and with their password if and only if no two of them
have a login or a password in common. -/
theorem logsIn_iff (C : Crypto) (ca : Context) (ops : List Op) (s : Users) (hrun : run C ops = .ret s)
    (hfree : CollisionFree C s.live) :
    (∀ a ∈ s.live, LogsIn C { ca with users := s.users.map Registered.user } a) ↔
      (s.live.map Account.login).Nodup ∧ (s.live.map Account.password).Nodup := by
  obtain ⟨s', hrun', hs⟩ := run_kept C ops
  cases hrun.symm.trans hrun'
  rw [← find?_key_iff hs.nodup Account.login, ← find?_key_iff hs.nodup Account.password]
  constructor
  · intro h
    refine ⟨fun a ha => ?_, fun a ha => ?_⟩
    · obtain ⟨auth, hauth, hfound⟩ := (h a ha).byLogin
      obtain rfl := (Prod.mk.inj (Er.ret.inj ((hashPassword_two _ _).symm.trans hauth))).2
      exact (getAuth_login_iff hs hfree ca ha).mp hfound
    · obtain ⟨auth, hauth, hfound⟩ := (h a ha).byPassword
      obtain rfl := (Prod.mk.inj (Er.ret.inj ((hashPassword_one _).symm.trans hauth))).2
      exact (getAuth_password_iff hs hfree ca ha).mp hfound
  · intro h a ha
    exact ⟨⟨_, hashPassword_two _ _, (getAuth_login_iff hs hfree ca ha).mpr (h.1 a ha)⟩,
      ⟨_, hashPassword_one _, (getAuth_password_iff hs hfree ca ha).mpr (h.2 a ha)⟩⟩

theorem logsIn_two_users :
    ∃ s, run Symbolic.crypto [.add [1, 2] (some [3, 4]) none, .add [5, 6] (some [7, 8]) none] = .ret s ∧
      s.live.length = 2 ∧
      ∀ a ∈ s.live, LogsIn Symbolic.crypto
        { publicKey := .zero, privateKey := .zero, users := s.users.map Registered.user } a := by
  refine ⟨_, rfl, rfl, ?_⟩
  exact (logsIn_iff Symbolic.crypto ⟨.zero, .zero, []⟩
    [.add [1, 2] (some [3, 4]) none, .add [5, 6] (some [7, 8]) none] _ rfl ⟨by decide, by decide⟩).mpr
      ⟨by decide, by decide⟩

/-- Two users with one login: the second one's challenge finds the first. -/
theorem logsIn_as_another :
    ∃ s a b, run Symbolic.crypto [.add [1, 2] (some [3, 4]) none, .add [5, 6] (some [3, 4]) none] = .ret s ∧
      s.live = [a, b] ∧ CollisionFree Symbolic.crypto s.live ∧
      getAuth (loginChallenge Symbolic.crypto b.login)
        { publicKey := .zero, privateKey := .zero, users := s.users.map Registered.user } =
          some (a.user Symbolic.crypto) ∧
      ¬ LogsIn Symbolic.crypto
        { publicKey := .zero, privateKey := .zero, users := s.users.map Registered.user } b := by
  refine ⟨_, _, _, rfl, rfl, ⟨by decide, by decide⟩, by decide, fun h => ?_⟩
  obtain ⟨auth, hauth, hfound⟩ := h.byLogin
  obtain rfl := (Prod.mk.inj (Er.ret.inj ((hashPassword_two _ _).symm.trans hauth))).2
  exact absurd hfound (by decide)

end Hyperboria.CryptoAuth

import CayenChat.Lib.Distinct
import CayenChat.Lib.Json
import CayenChat.Wire.Text

/-! # Server profiles

A server of the settings file: how it is read from the file, and what loading
repairs in it.
-/

namespace CayenChat.Storage

open Json

/-- When characters ISO-2022-JP cannot hold are sent as references. -/
inductive CharRefMode
  | auto | iso2022Jp | off
  deriving DecidableEq, Repr

inductive TextEncoding
  | utf8 | iso2022Jp | shiftJis | eucJp | eucKr | windows1251 | koi8R | koi8U | ibm866
  | iso8859_5 | xMacCyrillic | windows1254 | windows1252 | gbk | big5
  deriving DecidableEq, Repr

inductive SaslMechanism
  | plain | scramSha1 | scramSha256 | scramSha512 | ecdsaNist256pChallenge
  deriving DecidableEq, Repr

def CharRefMode.ofJson : Json → Option CharRefMode :=
  variant [("auto", .auto), ("iso2022_jp", .iso2022Jp), ("off", .off)]

def charRefsOrLegacy : Json → Option CharRefMode
  | .bool on => some (if on then .auto else .off)
  | v => CharRefMode.ofJson v

def TextEncoding.ofJson : Json → Option TextEncoding :=
  variant [("utf8", .utf8), ("iso2022_jp", .iso2022Jp), ("seven_bit_jis", .iso2022Jp),
    ("shift_jis", .shiftJis), ("euc_jp", .eucJp), ("euc_kr", .eucKr),
    ("windows1251", .windows1251), ("koi8_r", .koi8R), ("koi8_u", .koi8U), ("ibm866", .ibm866),
    ("iso8859_5", .iso8859_5), ("x_mac_cyrillic", .xMacCyrillic), ("windows1254", .windows1254),
    ("windows1252", .windows1252), ("gbk", .gbk), ("big5", .big5)]

def SaslMechanism.ofJson : Json → Option SaslMechanism :=
  variant [("plain", .plain), ("scram_sha1", .scramSha1), ("scram_sha256", .scramSha256),
    ("scram_sha512", .scramSha512), ("ecdsa_nist256p_challenge", .ecdsaNist256pChallenge)]

/-- The character settings of one channel; a side that is `none` follows the server. -/
structure ChannelCharset where
  channel : String
  decode : Option TextEncoding
  encode : Option TextEncoding
  charRefs : Option CharRefMode
  deriving DecidableEq, Repr

namespace ChannelCharset

def ofJson (v : Json) : Option ChannelCharset := do
  let slot ← slots ["channel", "decode", "encode", "char_refs"] [] v
  some
    { channel := ← required asStr (slot "channel")
      decode := ← optional (nullable TextEncoding.ofJson) none (slot "decode")
      encode := ← optional (nullable TextEncoding.ofJson) none (slot "encode")
      charRefs := ← optional (nullable CharRefMode.ofJson) none (slot "char_refs") }

def isSet (charset : ChannelCharset) : Bool :=
  charset.decode.isSome || charset.encode.isSome || charset.charRefs.isSome

end ChannelCharset

/-- The opt-in features of a server. -/
structure Ircv3Preferences where
  messageTags : Bool := false
  serverTime : Bool := false
  batch : Bool := false
  peerAvatars : Bool := false
  chathistory : Bool := false
  confirmedSending : Bool := false
  accounts : Bool := false
  deriving DecidableEq, Repr

def Ircv3Preferences.ofJson (v : Json) : Option Ircv3Preferences := do
  let slot ← slots ["message_tags", "server_time", "batch", "peer_avatars", "chathistory",
    "confirmed_sending", "accounts"] [] v
  some
    { messageTags := ← optional asBool false (slot "message_tags")
      serverTime := ← optional asBool false (slot "server_time")
      batch := ← optional asBool false (slot "batch")
      peerAvatars := ← optional asBool false (slot "peer_avatars")
      chathistory := ← optional asBool false (slot "chathistory")
      confirmedSending := ← optional asBool false (slot "confirmed_sending")
      accounts := ← optional asBool false (slot "accounts") }

structure ServerProfile where
  id : String
  host : String
  port : ℕ
  useTls : Bool
  verifyTlsCertificates : Bool
  encoding : TextEncoding
  charRefs : CharRefMode
  /-- The old note that both passwords are saved. -/
  rememberPasswords : Bool
  serverSaved : Bool
  saslSaved : Bool
  saslKeySaved : Bool
  allowPlaintextPass : Bool
  nickname : String
  username : String
  realname : String
  quitMessage : String
  sleepQuitMessage : String
  partMessage : String
  displayName : String
  channels : String
  saslEnabled : Bool
  saslMechanism : SaslMechanism
  saslUsername : String
  connectOnStartup : Bool
  userAvatars : Bool
  regainOps : Bool
  ircv3 : Ircv3Preferences
  avatarUrl : String
  peerAvatarUrl : String
  channelCharsets : List ChannelCharset
  /-- The channels whose key is noted as saved; `none` before the first scan. -/
  keyedChannels : Option (List String)
  deriving DecidableEq, Repr

def maxChannelCharsets : ℕ := 256
def maxKeyedChannels : ℕ := 256

def maxCharsetChannelBytes : ℕ := 200

def plainName (name : String) : Bool :=
  !name.toList.any fun ch => isControl ch || isWhitespace ch || ch == ','

def validCharsetChannel (name : String) : Bool :=
  1 < byteLen name && byteLen name ≤ maxCharsetChannelBytes &&
    startsWithAny ['#', '&', '!'] name && plainName name

def validNoteName (name : String) : Bool :=
  byteLen name ≤ maxCharsetChannelBytes && startsWithAny ['#', '&', '!', '+'] name &&
    plainName name

namespace ServerProfile

/-- A new profile. -/
def new (id host : String) : ServerProfile where
  id := id
  host := host
  port := 6667
  useTls := false
  verifyTlsCertificates := true
  encoding := .utf8
  charRefs := .auto
  rememberPasswords := false
  serverSaved := false
  saslSaved := false
  saslKeySaved := false
  allowPlaintextPass := false
  nickname := ""
  username := ""
  realname := ""
  quitMessage := ""
  sleepQuitMessage := ""
  partMessage := ""
  displayName := ""
  channels := ""
  saslEnabled := false
  saslMechanism := .plain
  saslUsername := ""
  connectOnStartup := false
  userAvatars := false
  regainOps := true
  ircv3 := {}
  avatarUrl := ""
  peerAvatarUrl := ""
  channelCharsets := []
  keyedChannels := some []

def fieldNames : List String :=
  ["id", "host", "port", "use_tls", "verify_tls_certificates", "encoding", "char_refs",
    "remember_passwords", "server_saved", "sasl_saved", "sasl_key_saved", "allow_plaintext_pass",
    "nickname", "username", "realname", "quit_message", "sleep_quit_message", "part_message",
    "display_name", "channels", "sasl_enabled", "sasl_mechanism", "sasl_username",
    "connect_on_startup", "user_avatars", "regain_ops", "ircv3", "avatar_url", "peer_avatar_url",
    "channel_charsets", "keyed_channels"]

def aliases : List (String × String) := [("iso2022jp_char_refs", "char_refs")]

def ofJson (v : Json) : Option ServerProfile := do
  let slot ← slots fieldNames aliases v
  some
    { id := ← required asStr (slot "id")
      host := ← required asStr (slot "host")
      port := ← required (unsigned 65535) (slot "port")
      useTls := ← required asBool (slot "use_tls")
      verifyTlsCertificates := ← optional asBool true (slot "verify_tls_certificates")
      encoding := ← required TextEncoding.ofJson (slot "encoding")
      charRefs := ← optional charRefsOrLegacy .auto (slot "char_refs")
      rememberPasswords := ← optional asBool false (slot "remember_passwords")
      serverSaved := ← optional asBool false (slot "server_saved")
      saslSaved := ← optional asBool false (slot "sasl_saved")
      saslKeySaved := ← optional asBool false (slot "sasl_key_saved")
      allowPlaintextPass := ← optional asBool false (slot "allow_plaintext_pass")
      nickname := ← optional asStr "" (slot "nickname")
      username := ← optional asStr "" (slot "username")
      realname := ← optional asStr "" (slot "realname")
      quitMessage := ← optional asStr "" (slot "quit_message")
      sleepQuitMessage := ← optional asStr "" (slot "sleep_quit_message")
      partMessage := ← optional asStr "" (slot "part_message")
      displayName := ← optional asStr "" (slot "display_name")
      channels := ← optional asStr "" (slot "channels")
      saslEnabled := ← optional asBool false (slot "sasl_enabled")
      saslMechanism := ← optional SaslMechanism.ofJson .plain (slot "sasl_mechanism")
      saslUsername := ← optional asStr "" (slot "sasl_username")
      connectOnStartup := ← optional asBool false (slot "connect_on_startup")
      userAvatars := ← optional asBool false (slot "user_avatars")
      regainOps := ← optional asBool true (slot "regain_ops")
      ircv3 := ← optional Ircv3Preferences.ofJson {} (slot "ircv3")
      avatarUrl := ← optional asStr "" (slot "avatar_url")
      peerAvatarUrl := ← optional asStr "" (slot "peer_avatar_url")
      channelCharsets := ← optional (Json.list ChannelCharset.ofJson) [] (slot "channel_charsets")
      keyedChannels := ← optional (nullable (Json.list asStr)) none (slot "keyed_channels") }

def serverPasswordSaved (p : ServerProfile) : Bool := p.serverSaved || p.rememberPasswords

def saslPasswordSaved (p : ServerProfile) : Bool := p.saslSaved || p.rememberPasswords

def cleanChannelCharsets (p : ServerProfile) : ServerProfile :=
  { p with
    channelCharsets := (Distinct.retainFirst
      (fun entry => entry.isSet && validCharsetChannel entry.channel)
      (fun entry => toAsciiLowercase entry.channel) (fun _ => true) [] p.channelCharsets).take
        maxChannelCharsets }

def cleanKeyedChannels (p : ServerProfile) : ServerProfile :=
  { p with
    keyedChannels := p.keyedChannels.map fun noted =>
      (Distinct.retainFirst validNoteName toAsciiLowercase (fun _ => true) [] noted).take
        maxKeyedChannels }

def verifyWithoutTls (p : ServerProfile) : ServerProfile :=
  if p.useTls then p else { p with verifyTlsCertificates := true }

def saslNeedsTls (p : ServerProfile) : ServerProfile :=
  if p.useTls then p else { p with saslEnabled := false }

end ServerProfile

end CayenChat.Storage

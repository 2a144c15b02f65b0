import CayenChat.Lib.Machine
import CayenChat.Wire.Names
import CayenChat.Wire.Tags
import CayenChat.Replay.Tracker
import CayenChat.History.Containment
import CayenChat.History.Attribution
import CayenChat.Echo.LabelBatches
import CayenChat.Sasl.Handshake
import CayenChat.Cap.Registration
import CayenChat.Cap.Dependencies
import CayenChat.Cap.Agreement
import CayenChat.Presence.Identity
import CayenChat.Regain.Safety
import CayenChat.Regain.Completion
import CayenChat.Wire.Secrecy
import CayenChat.Worker.Delivery
import CayenChat.Worker.Timers
import CayenChat.Sasl.Authentication
import CayenChat.Accounts.Departures
import CayenChat.App.Attention
import CayenChat.App.Groups
import CayenChat.Media.Books
import CayenChat.Storage.VaultRuns
import CayenChat.Ctcp.Limits
import CayenChat.Sasl.Framing
import CayenChat.Charset.Pins
import CayenChat.Media.Guarded
import CayenChat.Sending.Relayed
import CayenChat.Sending.OneLine
import CayenChat.Avatars.Mirror
import CayenChat.Avatars.Lookups
import CayenChat.Lib.Digits
import CayenChat.Media.Fetch
import CayenChat.Reconnect.Settled
import CayenChat.Wire.Privileges
import CayenChat.Sending.ModeLines
import CayenChat.Avatars.Belonging
import CayenChat.Wire.Instants
import CayenChat.Wire.Mentions
import CayenChat.Modes.Followed
import CayenChat.History.Counts
import CayenChat.App.Resume
import CayenChat.App.Settled
import CayenChat.App.Visits
import CayenChat.App.Scan
import CayenChat.Editing.InputRuns
import CayenChat.Avatars.Marks
import CayenChat.Avatars.Sharing
import CayenChat.Text.Keywords
import CayenChat.Search.Query
import CayenChat.Text.Links
import CayenChat.Storage.LogPaths
import CayenChat.Storage.Switch
import CayenChat.Storage.Import
import CayenChat.Storage.Normalized
import CayenChat.Media.Png
import CayenChat.Text.OsText
import CayenChat.Text.CharRefs
import CayenChat.Text.LinesUp
import CayenChat.Members.Choices
import CayenChat.Members.Batches
import CayenChat.Storage.Looks
import CayenChat.Editing.Clicks
import CayenChat.Logs.Synced
import CayenChat.Editing.History
import CayenChat.Editing.DoubleEnter
import CayenChat.Storage.AutoJoin
import CayenChat.Storage.ChannelDialog
import CayenChat.Logs.Combined
import CayenChat.Logs.Conversations
import CayenChat.Editing.PhraseJoins
import CayenChat.App.JoinSwitch
import CayenChat.App.Navigation
import CayenChat.App.LogSelection

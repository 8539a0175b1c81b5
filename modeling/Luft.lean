import Luft.Lib.Align
import Luft.Lib.BigEndian
import Luft.Lib.Chunks
import Luft.Lib.First
import Luft.Lib.Mealy
import Luft.Lib.Runs
import Luft.Lib.Gathering
import Luft.Lib.LongestMatch
import Luft.Lib.Searching
import Luft.Lib.Best
import Luft.Lib.Arena
import Luft.Lib.Grouped
import Luft.Passkeys.Hid
import Luft.Passkeys.HidFraming
import Luft.Passkeys.HidIsolation
import Luft.Passkeys.HidSound
import Luft.Passkeys.Serve
import Luft.Keyring.Vault
import Luft.Keyring.Access
import Luft.Keyring.Daemon
import Luft.Keyring.Grants
import Luft.Mover.Plan
import Luft.Mover.Table
import Luft.Mover.Disk
import Luft.Mover.Phases
import Luft.Mover.Geometry
import Luft.Lib.Moves
import Luft.Lib.Op
import Luft.Lib.Order
import Luft.SushiBoot.Version
import Luft.Lib.Successive
import Luft.Lib.Text
import Luft.SushiBoot.Images
import Luft.SushiBoot.Starting
import Luft.SushiBoot.Complete
import Luft.SushiBoot.Fallback
import Luft.Tiling.Geometry
import Luft.Tiling.Dwindle
import Luft.Tiling.DwindleRuns
import Luft.Tiling.DwindleBoxes
import Luft.Tiling.Strip
import Luft.Tiling.StripRuns
import Luft.Lib.Closest
import Luft.Tiling.Snap
import Luft.Keyring.Protected
import Luft.Keyring.Edits
import Luft.Keyring.Audit
import Luft.Keyring.Rewraps
import Luft.Packages.Repositories
import Luft.Packages.Written
import Luft.Packages.Accounts
import Luft.Usb.Protection
import Luft.Usb.Plugging
import Luft.Usb.Guarded
import Luft.Usb.Alive
import Luft.Usb.Sysfs
import Luft.Rover.Rename
import Luft.Rover.Renamed
import Luft.Mailman.Outbox
import Luft.Mailman.SentOnce
import Luft.Mailman.Server
import Luft.Mailman.Actions
import Luft.Mailman.RightMessage
import Luft.Mailman.NothingLost
import Luft.Mailman.Threads
import Luft.Mailman.Imap
import Luft.Mailman.ImapEnds
import Luft.Session.Clients
import Luft.Trust.Encrypting
import Luft.Trust.TakenBack
import Luft.Trust.Finishing
import Luft.Trust.Seal
import Luft.Reminders.Days
import Luft.Reminders.Repeats
import Luft.Reminders.Moments
import Luft.Reminders.Timer
import Luft.Lib.Paired
import Luft.Reminders.Ringing
import Luft.Reminders.Lines
import Luft.Reminders.Reading
import Luft.Reminders.RuleText
import Luft.Reminders.RoundTrip
import Luft.Reminders.Months
import Luft.Reminders.CatchingUp
import Luft.Reminders.Landing
import Luft.Reminders.CameBack
import Luft.Reminders.Exported
import Luft.Disks.Moving
import Luft.Lib.Extents
import Luft.Lib.Checked
import Luft.Mover.Unwrapped
import Luft.SushiBoot.Counter
import Luft.SushiBoot.VersionOrder
import Luft.Keyring.File
import Luft.Passkeys.Cbor
import Luft.Passkeys.Credential
import Luft.Passkeys.Authenticator
import Luft.Passkeys.Commands
import Luft.Lib.Dealing
import Luft.Passkeys.Inert
import Luft.Passkeys.FollowUps
import Luft.Passkeys.Listings
import Luft.Passkeys.Managing
import Luft.Passkeys.Agent
import Luft.Passkeys.OneAccount
import Luft.Keys.Rules
import Luft.Keys.Words
import Luft.Keys.Session
import Luft.Keys.Typing
import Luft.Kestrel.Tree
import Luft.Kestrel.Names
import Luft.Kestrel.Found
import Luft.Kestrel.Walk
import Luft.Kestrel.Sound
import Luft.Kestrel.Reading
import Luft.Kestrel.Listing
import Luft.Kestrel.Refreshed
import Luft.Drives.Filters
import Luft.Drives.Rules
import Luft.Trust.RecoveryKey
import Luft.Taskbar.Arrangement
import Luft.Taskbar.WellFormed
import Luft.Taskbar.Edited
import Luft.Drives.Records
import Luft.Drives.Accounts
import Luft.Lib.FileTree
import Luft.Drives.ConflictNames
import Luft.Drives.Conflicts
import Luft.Drives.Settled
import Luft.Lib.Files
import Luft.Pigeon.Save
import Luft.Taskbar.Geometry
import Luft.Taskbar.Laid
import Luft.Clipboard.History
import Luft.Clipboard.Consistent
import Luft.Lib.Intervals
import Luft.Mailman.UidSets
import Luft.Lib.BytePositions
import Luft.Lib.Glob
import Luft.SushiBoot.Matching
import Luft.Lib.SortBy
import Luft.Passkeys.Canonical
import Luft.Lib.Slices
import Luft.Trust.SignatureLists
import Luft.Lib.Streaming
import Luft.Lib.Utf8
import Luft.Sushi.Plymouth
import Luft.AppImages.Digest
import Luft.AppImages.Elf
import Luft.AppImages.Verified
import Luft.Lib.Results
import Luft.Lib.Utf16
import Luft.Boot.LoadOption
import Luft.Boot.Options
import Luft.Boot.Entries
import Luft.Boot.Agreeing
import Luft.Lib.Reader
import Luft.Trust.EventLog
import Luft.Trust.Prediction
import Luft.Meet.Layout
import Luft.Meet.Gaps
import Luft.Meet.Places
import Luft.Boot.Firmware

import DumpVault.Text.Blank
import DumpVault.Text.Digits
import DumpVault.Calendar.Date
import DumpVault.Calendar.Instant
import DumpVault.Calendar.Stamp
import DumpVault.Key
import DumpVault.Log
import DumpVault.Fault.OsError
import DumpVault.Fault.Blob
import DumpVault.Fault.Cause
import DumpVault.Fault.Io
import DumpVault.Fault.Exit
import DumpVault.Fault.Basic
import DumpVault.Fault.First
import DumpVault.Config.Basic
import DumpVault.Config.Validate
import DumpVault.Yaml.Mark
import DumpVault.Yaml.Cursor
import DumpVault.Yaml.ScalarText
import DumpVault.Yaml.Token
import DumpVault.Yaml.Event
import DumpVault.Text.Printed
import DumpVault.Text.Quoted
import DumpVault.Text.Shortest
import DumpVault.Yaml.Atom
import DumpVault.Yaml.Node
import DumpVault.Yaml.Decode
import DumpVault.Yaml.Content
import DumpVault.Config.Document
import DumpVault.Files.Location
import DumpVault.Files.Tree
import DumpVault.Run.Call
import DumpVault.Run.Prog
import DumpVault.Run.Copy
import DumpVault.Run.Upload
import DumpVault.Run.Utility
import DumpVault.Run.Dump
import DumpVault.Run.Restore
import DumpVault.Run.Fetch
import DumpVault.Run.Pipeline
import DumpVault.Machine.Environment
import DumpVault.Machine.Password
import DumpVault.Config.Overrides
import DumpVault.CommandLine.Flag
import DumpVault.CommandLine.Scan
import DumpVault.CommandLine.Invocation
import DumpVault.Store.Path
import DumpVault.Store.Memory
import DumpVault.Store.Directory
import DumpVault.Store.Scripted
import DumpVault.Shell.Word
import DumpVault.Shell.Script
import DumpVault.Shell.Pattern
import DumpVault.Shell.State
import DumpVault.Shell.Tool
import DumpVault.Shell.Run
import DumpVault.Store.Vault
import DumpVault.Json.Reader
import DumpVault.Store.Account
import DumpVault.Machine.Host
import DumpVault.CommandLine.Run
import DumpVault.Main
import DumpVault.Proofs.Course
import DumpVault.Proofs.Along
import DumpVault.Proofs.UploadWord
import DumpVault.Proofs.Uploads
import DumpVault.Proofs.Pieces
import DumpVault.Proofs.Places
import DumpVault.Proofs.Segments
import DumpVault.Proofs.Trees
import DumpVault.Proofs.Directories
import DumpVault.Proofs.Vaults
import DumpVault.Proofs.World
import DumpVault.Proofs.Publishing
import DumpVault.Proofs.Staging
import DumpVault.Proofs.Stages
import DumpVault.Proofs.Feeding
import DumpVault.Proofs.Durability
import DumpVault.Proofs.Orderly
import DumpVault.Proofs.Listing
import DumpVault.Proofs.Parts
import DumpVault.Proofs.Sparing
import DumpVault.Proofs.Buckets
import DumpVault.Proofs.Passages
import DumpVault.Proofs.FailFast
import DumpVault.Proofs.Stock
import DumpVault.Proofs.Custody
import DumpVault.Proofs.Days
import DumpVault.Proofs.Chronology
import DumpVault.Proofs.Inventory
import DumpVault.Proofs.Serving
import DumpVault.Proofs.Catalogue
import DumpVault.Proofs.Applying
import DumpVault.Proofs.Lines
import DumpVault.Proofs.Attribution
import DumpVault.Proofs.Lockstep
import DumpVault.Proofs.Secrecy
import DumpVault.Proofs.Histories
import DumpVault.Proofs.Recording
import DumpVault.Proofs.Partway
import DumpVault.Proofs.Batches
import DumpVault.Proofs.Unnumbered
import DumpVault.Proofs.Interleaving
import DumpVault.Proofs.ByteOrder
import DumpVault.Proofs.Stamps
import DumpVault.Proofs.Consulted
import DumpVault.Proofs.Devoted
import DumpVault.Proofs.Untouched
import DumpVault.Proofs.Reports
import DumpVault.Proofs.Retrieval
import DumpVault.Proofs.Outcomes
import DumpVault.Proofs.Verdicts
import DumpVault.Proofs.Departures
import DumpVault.Proofs.Delivery
import DumpVault.Proofs.Grammar
import DumpVault.Proofs.Conflicts
import DumpVault.Proofs.Placements
import DumpVault.Proofs.Reaping
import DumpVault.Proofs.Readings
import DumpVault.Proofs.Settings
import DumpVault.Proofs.Overriding
import DumpVault.Proofs.Renderings
import DumpVault.Proofs.Removals
import DumpVault.Proofs.FirstFaults
import DumpVault.Proofs.Lossless

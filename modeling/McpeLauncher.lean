import McpeLauncher.Axml.Attributes
import McpeLauncher.Axml.Bounds
import McpeLauncher.Axml.StringPoolDecoding
import McpeLauncher.Axml.Termination
import McpeLauncher.Client.Base64Lines
import McpeLauncher.Client.Base64Validation
import McpeLauncher.Client.BionicCond
import McpeLauncher.Client.Ecdsa
import McpeLauncher.Client.FakeAssetManager
import McpeLauncher.Client.HttpClientWebSocket
import McpeLauncher.Client.PairipPlt
import McpeLauncher.Client.Uuid
import McpeLauncher.Client.VibrantVisualsPatch
import McpeLauncher.Daemon.DaemonLauncher
import McpeLauncher.Discord.ActivityJson
import McpeLauncher.Discord.Extraction
import McpeLauncher.Discord.Framing
import McpeLauncher.Download.DownloadTask
import McpeLauncher.Download.GzipDownload
import McpeLauncher.Extract.Confinement
import McpeLauncher.Extract.MergeDirs
import McpeLauncher.Extract.PathBuffer
import McpeLauncher.Extract.Truncation
import McpeLauncher.FileUtil.FindInPath
import McpeLauncher.FileUtil.MkdirRecursive
import McpeLauncher.GameWindow.EglutTouch
import McpeLauncher.GameWindow.GamepadMappings
import McpeLauncher.GameWindow.JoystickManagerGlfw
import McpeLauncher.Hook.Chain
import McpeLauncher.Hook.ConstructorNames
import McpeLauncher.Hook.Coverage
import McpeLauncher.Hook.GiveBack
import McpeLauncher.Hook.Libraries
import McpeLauncher.Input.Buttons
import McpeLauncher.Input.FakeInputQueue
import McpeLauncher.Input.Touch
import McpeLauncher.Launcher.GameLauncher
import McpeLauncher.LibcShim.AddressLists
import McpeLauncher.LibcShim.AddressResults
import McpeLauncher.LibcShim.IoRewrite
import McpeLauncher.LibcShim.PollViaSelect
import McpeLauncher.LibcShim.PthreadOnce
import McpeLauncher.LibcShim.RelativeTimeouts
import McpeLauncher.LibcShim.StaticInitializers
import McpeLauncher.Linker.AddSymbols
import McpeLauncher.Linker.LoadRuns
import McpeLauncher.Linker.LoadedImage
import McpeLauncher.ModLoader.Dependencies
import McpeLauncher.ModLoader.Preinit
import McpeLauncher.Patch.CallInstruction
import McpeLauncher.Patch.PatternSearch
import McpeLauncher.PlayApi.Base64Decoder
import McpeLauncher.PlayApi.ConfigArrays
import McpeLauncher.PlayApi.GzipBody
import McpeLauncher.PlayApi.LoginApi
import McpeLauncher.PlayApi.LoginCache
import McpeLauncher.PlayApi.Task
import McpeLauncher.Profiles.Persistence
import McpeLauncher.Properties.PropertyList
import McpeLauncher.ShulkerPreview.ShulkerRenderer
import McpeLauncher.Telemetry.Backoff
import McpeLauncher.Telemetry.Configuration
import McpeLauncher.Telemetry.ConfigurationState
import McpeLauncher.Telemetry.EventCompressor
import McpeLauncher.Telemetry.FileIo
import McpeLauncher.Telemetry.FileRun
import McpeLauncher.Telemetry.NullLists
import McpeLauncher.Telemetry.RealtimeTasks
import McpeLauncher.Telemetry.Revalidation
import McpeLauncher.Telemetry.TaskProtocol
import McpeLauncher.TextInput.Erasing
import McpeLauncher.TextInput.KeepLastChar
import McpeLauncher.Versions.GoogleVersionChannel
import McpeLauncher.Versions.Removal
import McpeLauncher.Versions.VersionIndex
import McpeLauncher.Zoom.ZoomState

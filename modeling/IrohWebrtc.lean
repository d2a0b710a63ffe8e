import IrohWebrtc.Lib.Machine
import IrohWebrtc.Lib.Queue
import IrohWebrtc.Datagram
import IrohWebrtc.Adapter
import IrohWebrtc.InMemory
import IrohWebrtc.InMemory.Delivery
import IrohWebrtc.Adapter.Wakeup
import IrohWebrtc.WebrtcNative
import IrohWebrtc.WebrtcNative.Delivery
import IrohWebrtc.Lib.Ownership
import IrohWebrtc.WebrtcNative.Lifetime
import IrohWebrtc.Lib.Transducer
import IrohWebrtc.Lib.Utf8
import IrohWebrtc.Chat
import IrohWebrtc.Chat.Session
import IrohWebrtc.Chat.Draining
import IrohWebrtc.Chat.Responder
import IrohWebrtc.Lib.Broadcast
import IrohWebrtc.Signaling
import IrohWebrtc.Signaling.Isolation
import IrohWebrtc.Signaling.Roles
import IrohWebrtc.Lib.Base64
import IrohWebrtc.Lib.Regex
import IrohWebrtc.Sdp
import IrohWebrtc.Sdp.Lines
import IrohWebrtc.Sdp.Packing
import IrohWebrtc.Sdp.RoundTrip
import IrohWebrtc.Chat.Grammar
import IrohWebrtc.Adapter.Receive
import IrohWebrtc.Adapter.Send
import IrohWebrtc.Sdp.Ranking
import IrohWebrtc.Lib.Uri
import IrohWebrtc.Sdp.Link
import IrohWebrtc.InMemory.Isolation
import IrohWebrtc.WebrtcNative.Connect
import IrohWebrtc.Lib.Url
import IrohWebrtc.Serve
import IrohWebrtc.Serve.Confinement
import IrohWebrtc.Serve.Survival
import IrohWebrtc.Lib.Refinement
import IrohWebrtc.Adapter.Carrier
import IrohWebrtc.WebrtcNative.Transport
import IrohWebrtc.WebrtcWasm
import IrohWebrtc.Chat.Transport
import IrohWebrtc.Lib.Utf16
import IrohWebrtc.Chat.Page
import IrohWebrtc.Lib.Generator
import IrohWebrtc.Lib.ReedSolomon
import IrohWebrtc.Qr.Math
import IrohWebrtc.Qr.Polynomial
import IrohWebrtc.Lib.Interleave
import IrohWebrtc.Qr.Blocks
import IrohWebrtc.Lib.Bits
import IrohWebrtc.Qr.Data
import IrohWebrtc.Qr.Modules
import IrohWebrtc.Qr.Patterns
import IrohWebrtc.Qr.Placement
import IrohWebrtc.Qr.Reader
import IrohWebrtc.Lib.Lzw
import IrohWebrtc.Qr.Gif
import IrohWebrtc.Qr.Picture
import IrohWebrtc.Chat.QrCode
import IrohWebrtc.Manual
import IrohWebrtc.Manual.Exchange
import IrohWebrtc.Chat.Strings
import IrohWebrtc.Chat.Closures
